import BrokeredCalls.Error
import BrokeredCalls.Json.Value
import BrokeredCalls.Duration
import BrokeredCalls.Text.Utf8

/-!
Handlers of services. A handler says of every payload what one run on it does: what input it takes
note of, when it comes to an end, and with which outcome.
-/

namespace BrokeredCalls

inductive Pace where
  | atOnce
  | after (d : Duration)
  | never
  deriving DecidableEq, Repr

structure Handler.Run where
  input : Option Json
  pace : Pace
  outcome : Except Error Bytes

structure Handler where
  run : Bytes → Handler.Run

namespace Handler

def raw (note : Bytes → Json) (f : Bytes → Except Error Bytes) : Handler where
  run p := ⟨some (note p), .atOnce, f p⟩

/-- A handler of read values. A payload that cannot be read is answered without a run. -/
def typed {α : Type} (read : Bytes → Except Error α) (note : α → Json) (pace : Pace)
    (f : α → Except Error Bytes) : Handler where
  run p := match read p with
    | .error e => ⟨none, .atOnce, .error e⟩
    | .ok a => ⟨some (note a), pace, f a⟩

end Handler
end BrokeredCalls
