import BrokeredCalls.Duration
import BrokeredCalls.Error
import BrokeredCalls.Program

/-!
Trying an operation again while it fails in a retryable way. Delays start at the initial one and
are multiplied after each wait, up to the longest delay; the first one is not capped. Each wait is a
delay with a jitter of up to a quarter, which its surroundings draw.
-/

namespace BrokeredCalls

structure RetryConfig where
  maxAttempts : UInt32
  /-- A single-precision number. -/
  multiplier : Binary
  initialDelay : Duration
  maxDelay : Duration
  deriving DecidableEq, Repr

namespace RetryConfig

def default : RetryConfig where
  maxAttempts := 3
  multiplier := Binary.single.ofNat 2
  initialDelay := .ofMillis 100
  maxDelay := .ofSeconds 5

def nextDelay (c : RetryConfig) (delay : Duration) : Except Duration.Unrepresentable Duration := do
  let product := Binary.double.mul delay.toSeconds (Binary.double.convert c.multiplier)
  return min (← Duration.ofSeconds? product) c.maxDelay

end RetryConfig

namespace Retry

abbrev Draw := Fin 1000

/-- Three quarters and a half of the drawn thousandths. -/
def Draw.factor (k : Draw) : Binary :=
  Binary.double.addMagnitudes (Binary.double.round false 3 4)
    (Binary.double.mul (Binary.double.round false k 1000) (Binary.double.round false 1 2))

/-- Leaves a delay as long as it is. -/
def Draw.middle : Draw := ⟨500, by decide⟩

def jittered (delay : Duration) (k : Draw) : Except Duration.Unrepresentable Duration :=
  Duration.ofSeconds? (Binary.double.mul delay.toSeconds k.factor)

inductive Breakdown where
  | delay (why : Duration.Unrepresentable)
  | jitter (why : Duration.Unrepresentable)
  /-- A failure more than the count of failures holds. -/
  | count
  deriving DecidableEq, Repr

def Breakdown.message : Breakdown → String
  | delay why | jitter why => why.message
  | count => "attempt to add with overflow"

inductive Request (α : Type) where
  | attempt
  | draw
  | wait (delay length : Duration)
  | abort (why : Breakdown)

abbrev interface (α : Type) : Interface where
  Request := Request α
  Answer
    | .attempt => Except Error α
    | .draw => Draw
    | .wait .. => Unit
    | .abort _ => Empty

def breakOff {α β : Type} (why : Breakdown) : Program (interface α) β :=
  .ask (.abort why) fun impossible => impossible.elim

/-- The end of the attempts. The failure that comes to it is counted like those before, in 32 bits. -/
def giveUp {α : Type} (c : RetryConfig) (text : String) : Program (interface α) (Except Error α) :=
  if c.maxAttempts.toNat + 1 < UInt32.size then .done (.error (.transportRetryable text))
  else breakOff .count

def loop {α : Type} (c : RetryConfig) : (remaining : Nat) → Duration →
    Program (interface α) (Except Error α)
  | remaining, delay => .ask .attempt fun result =>
    match result, remaining with
    | .error (.transportRetryable text), 0 => giveUp c text
    | .error (.transportRetryable _), remaining + 1 =>
      .ask .draw fun k => match jittered delay k with
        | .error why => breakOff (.jitter why)
        | .ok length => .ask (.wait delay length) fun _ => match c.nextDelay delay with
          | .error why => breakOff (.delay why)
          | .ok next => loop c remaining next
    | result, _ => .done result

def program {α : Type} : Option RetryConfig → Program (interface α) (Except Error α)
  | none => Program.request (I := interface α) .attempt
  | some c => loop c c.maxAttempts.toNat c.initialDelay

/-- A wait is told by its delay, without the jitter. -/
inductive Act where
  | attempt
  | wait (d : Duration)
  deriving DecidableEq, Repr

structure Course (α : Type) where
  acts : List Act
  ending : Except Breakdown (Except Error α)

namespace Course

def attempts {α : Type} (c : Course α) : Nat := c.acts.count .attempt

def waits {α : Type} (c : Course α) : List Duration := c.acts.filterMap fun
  | .wait d => some d
  | .attempt => none

end Course

/-- How a program goes on after `n` attempts and `acts`, newest first, over an operation whose attempts
come to the given outcomes; `draw n` is what is drawn after `n` attempts. -/
def course {α : Type} (outcome : Nat → Except Error α) (draw : Nat → Draw) (n : Nat) (acts : List Act) :
    Program (interface α) (Except Error α) → Course α
  | .done r => ⟨acts.reverse, .ok r⟩
  | .ask .attempt next => course outcome draw (n + 1) (.attempt :: acts) (next (outcome n))
  | .ask .draw next => course outcome draw n acts (next (draw n))
  | .ask (.wait d _) next => course outcome draw n (.wait d :: acts) (next ())
  | .ask (.abort why) _ => ⟨acts.reverse, .error why⟩

end Retry
end BrokeredCalls
