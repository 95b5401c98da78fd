import BrokeredCalls.Number.Binary

namespace BrokeredCalls

structure Duration where
  nanos : Nat
  deriving DecidableEq, Repr, Inhabited

namespace Duration

def nanosPerSecond : Nat := 1000000000
def nanosPerMilli : Nat := 1000000

def ofSeconds (s : Nat) : Duration := ⟨s * nanosPerSecond⟩
def ofMillis (ms : Nat) : Duration := ⟨ms * nanosPerMilli⟩

instance : Add Duration := ⟨fun a b => ⟨a.nanos + b.nanos⟩⟩
instance : LE Duration := ⟨fun a b => a.nanos ≤ b.nanos⟩
instance : LT Duration := ⟨fun a b => a.nanos < b.nanos⟩
instance (a b : Duration) : Decidable (a ≤ b) := inferInstanceAs (Decidable (a.nanos ≤ b.nanos))
instance (a b : Duration) : Decidable (a < b) := inferInstanceAs (Decidable (a.nanos < b.nanos))
instance : Min Duration := ⟨fun a b => ⟨min a.nanos b.nanos⟩⟩

theorem le_def {a b : Duration} : a ≤ b ↔ a.nanos ≤ b.nanos := Iff.rfl
theorem min_nanos (a b : Duration) : (min a b).nanos = min a.nanos b.nanos := rfl

def wholeMillis (d : Duration) : Nat := d.nanos / nanosPerMilli

/-- Whole milliseconds, a started one counted. -/
def millisUp (d : Duration) : Nat := (d.nanos + (nanosPerMilli - 1)) / nanosPerMilli

/-- Nine digits of a fraction of a second without the zeros at their end. -/
def fractionDigits (n : Nat) : List Char :=
  let ds := Nat.toDigits 10 n
  let padded := List.replicate (9 - ds.length) '0' ++ ds
  (padded.reverse.dropWhile (· = '0')).reverse

def text (d : Duration) : String :=
  let fraction := d.nanos % nanosPerSecond
  toString (d.nanos / nanosPerSecond)
    ++ (if fraction = 0 then "" else "." ++ String.ofList (fractionDigits fraction)) ++ "s"

/-- The length in seconds as a double: seconds and fraction are each rounded, then their sum. -/
def toSeconds (d : Duration) : Binary :=
  Binary.double.addMagnitudes
    (Binary.double.ofNat (d.nanos / nanosPerSecond))
    (Binary.double.round false (d.nanos % nanosPerSecond) nanosPerSecond)

inductive Unrepresentable where
  | negative
  | tooLarge
  deriving DecidableEq, Repr

def Unrepresentable.message : Unrepresentable → String
  | .negative => "cannot convert float seconds to Duration: value is negative"
  | .tooLarge => "cannot convert float seconds to Duration: value is either too big or NaN"

/-- The nearest whole number of nanoseconds, for seconds from zero up to `2 ^ 64`. -/
def ofSeconds? (s : Binary) : Except Unrepresentable Duration :=
  if s.isNegative then .error .negative
  else match s.ratio? with
    | none => .error .tooLarge
    | some (num, den) =>
      if UInt64.size * den ≤ num then .error .tooLarge
      else .ok ⟨Nat.divNearest (num * nanosPerSecond) den⟩

end Duration
end BrokeredCalls
