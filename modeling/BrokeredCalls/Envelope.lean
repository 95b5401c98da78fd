import BrokeredCalls.FireTime
import BrokeredCalls.Text.Utf8

/-!
What travels on a queue. One shape carries four kinds of entry, told apart by whether there is a
fire time and whether there is a payload.
-/

namespace BrokeredCalls

structure Envelope where
  service : String
  payload : Bytes
  fireAt : Option FireTime
  /-- Known only once the entry was read from a queue. -/
  entryId : Option String
  deriving DecidableEq, Repr

namespace Envelope

def immediate (service : String) (payload : Bytes) : Envelope := ⟨service, payload, none, none⟩
def deferred (service : String) (t : FireTime) (payload : Bytes) : Envelope :=
  ⟨service, payload, some t, none⟩
/-- Cancels the deferred call of the same service and fire time. -/
def tombstone (service : String) (t : FireTime) : Envelope := ⟨service, [], some t, none⟩
/-- Keeps a queue in being and asks for nothing. -/
def placeholder (service : String) : Envelope := immediate service []

def withEntryId (e : Envelope) (id : String) : Envelope := { e with entryId := some id }

def isDeferred (e : Envelope) : Bool := e.fireAt.isSome
def isTombstone (e : Envelope) : Bool := e.fireAt.isSome && e.payload.isEmpty
def isPlaceholder (e : Envelope) : Bool := e.fireAt.isNone && e.payload.isEmpty

/-- The entry as a queue keeps it: named for the queue, its id not yet part of it. -/
def stored (e : Envelope) (queue : String) : Envelope :=
  { e with service := queue, entryId := none }

end Envelope

structure Delivery where
  queue : String
  id : String
  envelope : Envelope
  deriving DecidableEq, Repr

end BrokeredCalls
