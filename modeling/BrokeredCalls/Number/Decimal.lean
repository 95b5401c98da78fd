/-!
Whole numbers in decimal text. A number is read with an optional sign and at least one ASCII digit,
and only if it fits the width asked for; nothing else may surround it.
-/

namespace BrokeredCalls.Decimal

def digit? (c : Char) : Option Nat :=
  if '0' ≤ c ∧ c ≤ '9' then some (c.toNat - 48) else none

def isDigit (c : Char) : Bool := (digit? c).isSome

def readDigits : Nat → List Char → Option Nat
  | n, [] => some n
  | n, c :: cs => do readDigits (n * 10 + (← digit? c)) cs

def nat? : List Char → Option Nat
  | [] => none
  | cs => readDigits 0 cs

def signed? : List Char → Option Int
  | '-' :: cs => (nat? cs).map fun n => -(n : Int)
  | '+' :: cs => (nat? cs).map Int.ofNat
  | cs => (nat? cs).map Int.ofNat

def int64? (s : String) : Option Int64 := do
  let n ← signed? s.toList
  if Int64.minValue.toInt ≤ n ∧ n ≤ Int64.maxValue.toInt then some (Int64.ofInt n) else none

/-- An unsigned number may carry a plus sign but no minus sign. -/
def nat64? (s : String) : Option Nat := do
  let n ← match s.toList with
    | '+' :: cs => nat? cs
    | cs => nat? cs
  if n < UInt64.size then some n else none

def ofInt64 (t : Int64) : String := toString t.toInt

end BrokeredCalls.Decimal
