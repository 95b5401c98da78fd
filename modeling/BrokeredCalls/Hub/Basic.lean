import BrokeredCalls.Hub.Queue
import BrokeredCalls.Broker.Call

/-!
The memory store that brokers of one process share: queues, reply lists that expire, and hashes.
`Hub.serve` is what an open broker on it does for each call at one moment; a read or a pop that finds
nothing before its deadline answers nothing yet. The clock has no last reading: an expiry or a deadline
is the sum of a reading and a duration, and durations are taken to be so short that a machine clock can
still hold that sum.
-/

namespace BrokeredCalls

/-- Both clocks at one moment: the wall clock, and the nanoseconds since the start that no shift of
the wall clock moves. -/
structure Moment where
  wall : Instant
  clock : Nat
  deriving DecidableEq, Repr

namespace Hub

structure ReplyList where
  values : List Bytes
  expiresAt : Nat
  deriving DecidableEq, Repr

end Hub

structure Hub where
  queues : Table String Hub.Queue
  lists : Table String Hub.ReplyList
  hashes : Table String (Table String Bytes)
  deriving Repr

namespace Hub

def empty : Hub := ⟨.empty, .empty, .empty⟩

instance : Inhabited Hub := ⟨empty⟩

def append (h : Hub) (now : Moment) (queue : String) (e : Envelope) (maxLength : Option Nat) :
    EntryId × Hub :=
  let (id, q) := ((h.queues.find? queue).getD .empty).push now.wall.millis (e.stored queue) maxLength
  (id, { h with queues := h.queues.set queue q })

def queueLength (h : Hub) (queue : String) : Nat :=
  match h.queues.find? queue with
  | some q => q.entries.length
  | none => 0

def listGroups (h : Hub) (queue : String) : Except Error (List String) :=
  match h.queues.find? queue with
  | some q => .ok (Utf8.ascending q.groups.keys)
  | none => .error (.missingQueue queue)

def createGroup (h : Hub) (queue group : String) : Except Error Hub :=
  match h.queues.find? queue with
  | some q => .ok { h with queues := h.queues.set queue (q.createGroup group) }
  | none => .error (.missingQueue queue)

def carries (h : Hub) (queue group : String) : Bool :=
  match h.queues.find? queue with
  | some q => q.groups.contains group
  | none => false

def takeAll (group : String) (count : Nat) : List String → Hub → List Delivery × Hub
  | [], h => ([], h)
  | name :: names, h =>
    match (h.queues.find? name).bind (·.take? group count) with
    | some (es, q) =>
      let (rest, h) := takeAll group count names { h with queues := h.queues.set name q }
      (es.map (Entry.delivery name) ++ rest, h)
    | none => takeAll group count names h

/-- Takes nothing unless every listed queue carries the group. -/
def read (h : Hub) (group : String) (queues : List String) (count : Nat) :
    Except Error (List Delivery × Hub) :=
  match queues.find? fun q => !h.carries q group with
  | some q => .error (.missingQueue q)
  | none => .ok (takeAll group (max count 1) queues h)

def liveList? (h : Hub) (now : Moment) (key : String) : Option ReplyList :=
  match h.lists.find? key with
  | some l => if l.expiresAt ≤ now.clock then none else some l
  | none => none

/-- The newest push decides when the whole list expires; an expired list is forgotten first. -/
def pushReply (h : Hub) (now : Moment) (key : String) (value : Bytes) (ttl : Duration) : Hub :=
  let old := match h.liveList? now key with
    | some l => l.values
    | none => []
  { h with lists := h.lists.set key ⟨old ++ [value], now.clock + ttl.nanos⟩ }

/-- The oldest live reply; with the last one the list goes. -/
def popReply (h : Hub) (now : Moment) (key : String) : Option Bytes × Hub :=
  match h.liveList? now key with
  | none => (none, { h with lists := h.lists.erase key })
  | some ⟨[], _⟩ => (none, { h with lists := h.lists.erase key })
  | some ⟨[v], _⟩ => (some v, { h with lists := h.lists.erase key })
  | some ⟨v :: w :: vs, t⟩ => (some v, { h with lists := h.lists.set key ⟨w :: vs, t⟩ })

def hash (h : Hub) (key : String) : Table String Bytes := (h.hashes.find? key).getD .empty

def hashSet (h : Hub) (key field : String) (value : Bytes) : Hub :=
  { h with hashes := h.hashes.set key ((h.hash key).set field value) }

def hashFields (h : Hub) (key : String) : List String :=
  Utf8.ascending (h.hash key).keys

/-- With its last field the hash goes. -/
def hashTake (h : Hub) (key field : String) : Option Bytes × Hub :=
  match h.hashes.find? key with
  | none => (none, h)
  | some fields =>
    let rest := fields.erase field
    (fields.find? field,
      { h with hashes := if rest.isEmpty then h.hashes.erase key else h.hashes.set key rest })

def deleteQueue (h : Hub) (queue : String) : Bool × Hub :=
  (h.queues.contains queue, { h with queues := h.queues.erase queue })

open Broker (Call)

abbrev Served (c : Call) : Type := Option (Except Error c.Value × Hub)

/-- Serves a call on an open handle. `deadline` counts for calls that wait. -/
def serve (h : Hub) (now : Moment) (deadline : Nat) : (c : Call) → Served c
  | .append queue e n =>
    let (id, h) := h.append now queue e (some (max n 1))
    some (.ok id.text, h)
  | .appendPlaceholder queue =>
    let (id, h) := h.append now queue (.placeholder queue) none
    some (.ok id.text, h)
  | .queueExists queue => some (.ok (h.queues.contains queue), h)
  | .queueLength queue => some (.ok (h.queueLength queue), h)
  | .listGroups queue => some (h.listGroups queue, h)
  | .createGroup queue group =>
    match h.createGroup queue group with
    | .ok h => some (.ok (), h)
    | .error e => some (.error e, h)
  | .readGroup group _ queues count _ =>
    match h.read group queues count with
    | .error e => some (.error e, h)
    | .ok ([], h) => if deadline ≤ now.clock then some (.ok [], h) else none
    | .ok (ds, h) => some (.ok ds, h)
  | .acknowledge .. => some (.ok (), h)
  | .pushReply key value ttl => some (.ok (), h.pushReply now key value ttl)
  | .popReply key _ =>
    match h.popReply now key with
    | (some v, h) => some (.ok (some v), h)
    | (none, h) => if deadline ≤ now.clock then some (.ok none, h) else none
  | .hashSet key field value => some (.ok (), h.hashSet key field value)
  | .hashFields key => some (.ok (h.hashFields key), h)
  | .hashTake key field =>
    let (v, h) := h.hashTake key field
    some (.ok v, h)
  | .hashDelete key field => some (.ok (), (h.hashTake key field).2)
  | .close => some (.ok (), h)

def wakes : Call → Bool
  | .append .. | .appendPlaceholder _ | .pushReply .. | .close => true
  | _ => false

end Hub
end BrokeredCalls
