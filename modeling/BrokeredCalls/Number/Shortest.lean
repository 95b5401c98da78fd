import BrokeredCalls.Number.Binary

/-!
The shortest decimal that reads back as a given binary number, and its text. `Format.shortest` takes
the first grid of decimals, from one digit on, that has a point inside the interval rounding to the
number; of two such points the nearer one, of two equally near the even one.
-/

namespace BrokeredCalls

structure DecimalNumber where
  digits : Nat
  exponent : Int
  deriving DecidableEq, Repr

namespace Binary

def leadingExponent (num den : Nat) : Int :=
  if den ≤ num then ((Nat.toDigits 10 (num / den)).length : Int) - 1
  else
    let j := (Nat.toDigits 10 den).length - (Nat.toDigits 10 num).length
    if den ≤ num * Nat.pow 10 j then -(j : Int) else -(j + 1 : Int)

/-- The reals that round to a number, in units of a quarter of its last place. -/
structure Interval where
  low : Nat
  centre : Nat
  high : Nat
  closed : Bool

/-- Below a power of two the neighbours stand half as far apart. -/
def Format.interval (f : Format) (mantissa : Nat) (exponent : Int) : Interval :=
  let narrow := mantissa = Nat.pow 2 (f.precision - 1) ∧ exponent ≠ f.minExponent
  { low := 4 * mantissa - (if narrow then 1 else 2)
    centre := 4 * mantissa
    high := 4 * mantissa + 2
    closed := mantissa % 2 = 0 }

/-- Whether `d` grid steps of `num / den` units each lie inside. -/
def Interval.contains (i : Interval) (num den d : Nat) : Bool :=
  if i.closed then i.low * den ≤ d * num && d * num ≤ i.high * den
  else i.low * den < d * num && d * num < i.high * den

/-- The point of a grid that reads back, if there is one: only the two points around the centre
need a look. -/
def Interval.pointOn? (i : Interval) (num den : Nat) : Option Nat :=
  let d := i.centre * den / num
  let below := i.centre * den - d * num
  let above := (d + 1) * num - i.centre * den
  match i.contains num den d, i.contains num den (d + 1) with
  | true, true =>
    if below < above then some d
    else if above < below then some (d + 1)
    else if d % 2 = 0 then some d else some (d + 1)
  | true, false => some d
  | false, true => some (d + 1)
  | false, false => none

/-- The step of the decimal grid `10 ^ k` in units of `2 ^ e`. -/
def gridStep (k e : Int) : Nat × Nat :=
  let (n, d) := scale (Nat.pow 10 k.toNat) (Nat.pow 10 (-k).toNat) e
  (n, d)

def stripZeros : Nat → Nat → Int → DecimalNumber
  | 0, digits, exponent => ⟨digits, exponent⟩
  | fuel + 1, digits, exponent =>
    if digits ≠ 0 ∧ digits % 10 = 0 then stripZeros fuel (digits / 10) (exponent + 1)
    else ⟨digits, exponent⟩

def Format.shortest (f : Format) (mantissa : Nat) (exponent : Int) : DecimalNumber :=
  if mantissa = 0 then ⟨0, 0⟩
  else
    let (num, den) := scale mantissa 1 (-exponent)
    let top := leadingExponent num den
    let i := f.interval mantissa exponent
    let hit := (List.range 20).findSome? fun (n : Nat) =>
      let k : Int := top - n
      let (a, b) := gridStep k (exponent - 2)
      (i.pointOn? a b).map fun d => (d, k)
    match hit with
    | some (d, k) => stripZeros 20 d k
    | none => ⟨mantissa, 0⟩

end Binary

/-- How a number is laid out. Positional text is used when the point falls, counted from the first
digit, above `positional.1` and at most at `positional.2`; without these bounds, always. -/
structure NumberLayout where
  wholeSuffix : String
  positional : Option (Int × Int)
  nan : String
  infinity : String

namespace NumberLayout

def zeros (n : Nat) : String := String.ofList (List.replicate n '0')

def positionalText (l : NumberLayout) (digits : List Char) (point : Int) : String :=
  if (digits.length : Int) ≤ point then
    String.ofList digits ++ zeros (point - digits.length).toNat ++ l.wholeSuffix
  else if 0 < point then
    String.ofList (digits.take point.toNat) ++ "." ++ String.ofList (digits.drop point.toNat)
  else
    "0." ++ zeros (-point).toNat ++ String.ofList digits

def scientificText (digits : List Char) (point : Int) : String :=
  let lead := String.ofList (digits.take 1)
  let tail := digits.drop 1
  let mark := "e" ++ toString (point - 1)
  if tail.isEmpty then lead ++ mark else lead ++ "." ++ String.ofList tail ++ mark

def decimalText (l : NumberLayout) (x : DecimalNumber) : String :=
  if x.digits = 0 then "0" ++ l.wholeSuffix
  else
    let digits := Nat.toDigits 10 x.digits
    let point : Int := digits.length + x.exponent
    match l.positional with
    | none => l.positionalText digits point
    | some (low, high) =>
      if low < point ∧ point ≤ high then l.positionalText digits point
      else scientificText digits point

def text (l : NumberLayout) (f : Binary.Format) : Binary → String
  | .nan => l.nan
  | .infinite s => (if s then "-" else "") ++ l.infinity
  | .finite s m e => (if s then "-" else "") ++ l.decimalText (f.shortest m e)

/-- Doubles that always show a point or an exponent, and an exponent from `1e16` up and below
`1e-5`. -/
def pointed (nan infinity : String) : NumberLayout := ⟨".0", some (-5, 16), nan, infinity⟩

end NumberLayout
end BrokeredCalls
