import BrokeredCalls.Number.Decimal
import BrokeredCalls.Number.Shortest

/-!
Numbers of JSON text. A literal without fraction and exponent that fits 64 bits is a whole number;
every other literal is a double. Its digits are gathered into 64 bits, later ones only counting as
places, then scaled by one power of ten.
-/

namespace BrokeredCalls.Json

inductive Number where
  | int (n : Int)
  | real (v : Binary)
  deriving DecidableEq, Repr

structure Literal where
  negative : Bool
  whole : List Char
  fraction : List Char
  exponent : Option (Bool × List Char)
  deriving DecidableEq, Repr

namespace Literal

def digitValue (c : Char) : Nat := c.toNat - 48

def isWhole (l : Literal) : Bool := l.fraction.isEmpty && l.exponent.isNone

/-- Gathers digits while they fit 64 bits; the count is of those left out. -/
def gather : Nat → List Char → Nat × Nat
  | n, [] => (n, 0)
  | n, c :: cs =>
    let m := n * 10 + digitValue c
    if m < UInt64.size then gather m cs else (n, cs.length + 1)

/-- Digits after the point move it as far as they were gathered. -/
def significand (l : Literal) : Nat × Int :=
  let (n, beyond) := gather 0 l.whole
  let (m, dropped) := gather n l.fraction
  (m, (beyond : Int) - ((l.fraction.length - dropped : Nat) : Int))

def powerOfTen (n : Nat) : Binary := Binary.double.ofNat (Nat.pow 10 n)

/-- Divides by ten as often as asked, at most 308 times in one step. -/
def shrink : (steps : Nat) → Nat → Binary → Binary
  | 0, _, v => v
  | steps + 1, places, v =>
    if places ≤ 308 then Binary.double.divMagnitudes v (powerOfTen places)
    else shrink steps (places - 308) (Binary.double.divMagnitudes v (powerOfTen 308))

/-- A magnitude with its decimal exponent applied; none if it is beyond every double. -/
def scaled (digits : Nat) (exponent : Int) : Option Binary :=
  let v := Binary.double.ofNat digits
  if digits = 0 then some v
  else if exponent < 0 then some (shrink 4 (min (-exponent).toNat 1232) v)
  else if 308 < exponent then none
  else match Binary.double.mul v (powerOfTen exponent.toNat) with
    | .finite s m e => some (.finite s m e)
    | _ => none

def negate : Binary → Binary
  | .finite _ m e => .finite true m e
  | v => v

def exponentValue : Option (Bool × List Char) → Int
  | none => 0
  | some (negative, ds) =>
    let n := ((Decimal.readDigits 0 ds).getD 0 : Nat)
    if negative then -(n : Int) else n

def real (l : Literal) : Option Binary := do
  let (digits, places) := l.significand
  let v ← scaled digits (places + exponentValue l.exponent)
  return if l.negative then negate v else v

/-- The whole number spelled, if it fits 64 bits; minus zero is none. -/
def int? (l : Literal) : Option Int := do
  if !l.isWhole then none
  let n ← Decimal.readDigits 0 l.whole
  if l.negative then
    if n = 0 ∨ -(n : Int) < Int64.minValue.toInt then none else some (-(n : Int))
  else if n < UInt64.size then some n else none

def number? (l : Literal) : Option Number :=
  match l.int? with
  | some n => some (.int n)
  | none => l.real.map .real

end Literal

namespace Number

def layout : NumberLayout := .pointed "null" "null"

def text : Number → String
  | int n => toString n
  | real v => layout.text Binary.double v

end Number
end BrokeredCalls.Json
