/-!
Binary floating numbers held exactly. A finite value is `mantissa * 2 ^ exponent` with a sign; a
format fixes how many bits the mantissa has and how far exponents reach. Every operation is an exact
rational operation followed by one rounding to the nearest value, a tie going to the even mantissa.
-/

namespace BrokeredCalls

/-- The quotient rounded to the nearest whole number, a tie going to the even one. -/
def Nat.divNearest (num den : Nat) : Nat :=
  let q := num / den
  let r := num % den
  if 2 * r < den then q
  else if den < 2 * r then q + 1
  else if q % 2 = 0 then q else q + 1

inductive Binary where
  | nan
  | infinite (negative : Bool)
  | finite (negative : Bool) (mantissa : Nat) (exponent : Int)
  deriving DecidableEq, Repr

namespace Binary

structure Format where
  precision : Nat
  /-- The least exponent; the gap between values never gets smaller than its power of two. -/
  minExponent : Int
  /-- Values from this power of two on are infinite. -/
  limit : Int

def single : Format := ⟨24, -149, 128⟩
def double : Format := ⟨53, -1074, 1024⟩

/-- The quotient `num / (den * 2 ^ e)` as a pair of whole numbers. -/
def scale (num den : Nat) : Int → Nat × Nat
  | .ofNat e => (num, den * Nat.pow 2 e)
  | .negSucc e => (num * Nat.pow 2 (e + 1), den)

namespace Format

/-- The exponent at which `num / den` has a mantissa of full precision, or the least exponent. -/
def exponentFor (f : Format) (num den : Nat) : Int :=
  let low : Int := num.log2 - den.log2 - f.precision
  let (n, d) := scale num den low
  let e := if n / d < Nat.pow 2 f.precision then low else low + 1
  max e f.minExponent

def round (f : Format) (negative : Bool) (num den : Nat) : Binary :=
  if num = 0 then .finite negative 0 f.minExponent
  else
    let e := f.exponentFor num den
    let (n, d) := scale num den e
    let m := Nat.divNearest n d
    let (m, e) := if m = Nat.pow 2 f.precision then (Nat.pow 2 (f.precision - 1), e + 1) else (m, e)
    if m ≥ Nat.pow 2 (f.precision - 1) ∧ e + f.precision > f.limit then .infinite negative
    else .finite negative m e

def ofNat (f : Format) (n : Nat) : Binary := f.round false n 1

def ofInt (f : Format) (n : Int) : Binary := f.round (n < 0) n.natAbs 1

def convert (f : Format) : Binary → Binary
  | .finite s m e => let (n, d) := scale m 1 (-e); f.round s n d
  | v => v

def mul (f : Format) : Binary → Binary → Binary
  | .nan, _ | _, .nan => .nan
  | .infinite s, .infinite t => .infinite (s != t)
  | .infinite s, .finite t m _ | .finite t m _, .infinite s =>
    if m = 0 then .nan else .infinite (s != t)
  | .finite s m e, .finite t n k => let (a, b) := scale (m * n) 1 (-(e + k)); f.round (s != t) a b

def divMagnitudes (f : Format) : Binary → Binary → Binary
  | .finite s m e, .finite t n k =>
    let (a, b) := scale m n (k - e)
    f.round (s != t) a b
  | _, _ => .nan

def addMagnitudes (f : Format) : Binary → Binary → Binary
  | .finite _ m e, .finite _ n k =>
    let low := min e k
    let (a, b) := scale (m * Nat.pow 2 (e - low).toNat + n * Nat.pow 2 (k - low).toNat) 1 (-low)
    f.round false a b
  | .nan, _ | _, .nan => .nan
  | _, _ => .infinite false

end Format

/-- Below zero; negative zero is not. -/
def isNegative : Binary → Bool
  | .nan => false
  | .infinite s => s
  | .finite s m _ => s && m != 0

def ratio? : Binary → Option (Nat × Nat)
  | .finite _ m e => some (scale m 1 (-e))
  | _ => none

end Binary
end BrokeredCalls
