import BrokeredCalls.Envelope
import BrokeredCalls.Program

/-!
What a broker can be asked to do: queues read by groups of competing consumers, short-lived lists for
replies, and hashes for what must last.
-/

namespace BrokeredCalls.Broker

inductive Call where
  /-- Adds an entry and keeps at most `maxLength` of the newest. -/
  | append (queue : String) (envelope : Envelope) (maxLength : Nat)
  | appendPlaceholder (queue : String)
  | queueExists (queue : String)
  | queueLength (queue : String)
  | listGroups (queue : String)
  /-- A group sees what is added after it was created; one that exists is left alone. -/
  | createGroup (queue group : String)
  /-- Takes entries that the group was not yet given, at most `count` of each queue, and waits up
  to `block` for the first. -/
  | readGroup (group consumer : String) (queues : List String) (count : Nat) (block : Duration)
  | acknowledge (queue group : String) (ids : List String)
  | pushReply (key : String) (value : Bytes) (ttl : Duration)
  | popReply (key : String) (timeout : Duration)
  | hashSet (key field : String) (value : Bytes)
  | hashFields (key : String)
  | hashTake (key field : String)
  | hashDelete (key field : String)
  | close
  deriving DecidableEq, Repr

namespace Call

abbrev Value : Call → Type
  | append .. | appendPlaceholder _ => String
  | queueExists _ => Bool
  | queueLength _ => Nat
  | listGroups _ | hashFields _ => List String
  | readGroup .. => List Delivery
  | popReply .. | hashTake .. => Option Bytes
  | createGroup .. | acknowledge .. | pushReply .. | hashSet .. | hashDelete .. | close => Unit

def name : Call → String
  | append .. => "append"
  | appendPlaceholder _ => "append_placeholder"
  | queueExists _ => "queue_exists"
  | queueLength _ => "queue_len"
  | listGroups _ => "list_groups"
  | createGroup .. => "create_group"
  | readGroup .. => "read_group"
  | acknowledge .. => "ack"
  | pushReply .. => "push_reply"
  | popReply .. => "pop_reply"
  | hashSet .. => "hash_set"
  | hashFields _ => "hash_fields"
  | hashTake .. => "hash_take"
  | hashDelete .. => "hash_delete"
  | close => "close"

def patience : Call → Duration
  | readGroup _ _ _ _ d | popReply _ d => d
  | _ => ⟨0⟩

end Call

abbrev interface : Interface where
  Request := Call
  Answer c := Except Error c.Value

/-- A call whose error ends the program. -/
def call (c : Call) : Fallible interface Error c.Value := ExceptT.mk (Program.request (I := interface) c)

/-- A call whose error is an answer like another. -/
def attempt (c : Call) : Fallible interface Error (Except Error c.Value) :=
  ExceptT.lift (Program.request (I := interface) c)

def perform (c : Call) : Fallible interface Error Unit := do
  let _ ← call c
  return ()

end BrokeredCalls.Broker
