import BrokeredCalls.Duration
import BrokeredCalls.Error
import BrokeredCalls.Number.Decimal

/-!
Instants of the wall clock and the fire times made of them. An instant is any whole number of
nanoseconds around the epoch; a fire time is one that fits 63 bits after it.
-/

namespace BrokeredCalls

/-- Nanoseconds since the epoch, negative before it. -/
structure Instant where
  nanos : Int
  deriving DecidableEq, Repr, Inhabited

abbrev FireTime := Int64

namespace Instant

def fireTime (t : Instant) : Except Error FireTime :=
  if t.nanos < 0 then
    .error (.invalidFireTime "before unix epoch: second time provided was later than self")
  else if t.nanos ≤ Int64.maxValue.toInt then .ok (Int64.ofInt t.nanos)
  else
    .error (.invalidFireTime ((Duration.mk t.nanos.toNat).text ++ " overflows i64 nanoseconds"))

/-- The clock reading that due tasks are measured by. A reading that is no fire time counts as the
last one. -/
def reading (t : Instant) : FireTime :=
  match t.fireTime with
  | .ok n => n
  | .error _ => Int64.maxValue

def millis (t : Instant) : Nat := t.nanos.toNat / Duration.nanosPerMilli

end Instant
end BrokeredCalls
