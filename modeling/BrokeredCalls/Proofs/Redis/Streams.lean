import Mathlib.Data.List.DropRight
import Mathlib.Logic.Function.Basic
import BrokeredCalls.Proofs.Redis.Carrying

/-!
What a Redis server does with its streams, as far as brokers ask for it. An entry is added at the end,
and a bound keeps only the newest. A group can be made in a stream that exists, once. A group read fails
on a stream that does not exist or lacks the group, and the answer says which.
-/

namespace BrokeredCalls.Redis

open Program (Runs)

/-- The last of a list, with no bound all of it. -/
def newest {α : Type} : Option Nat → List α → List α
  | some n, l => l.rtake n
  | none, l => l

structure Stream where
  rows : List Row
  groups : List String

namespace Stream

def empty : Stream := ⟨[], []⟩

/-- With a bound the newest rows stay, as many as it says. -/
def add (s : Stream) (row : Row) (maxLength : Option Nat) : Stream :=
  { s with rows := newest maxLength (s.rows ++ [row]) }

end Stream

abbrev Streams := String → Option Stream

namespace Streams

def carries (ss : Streams) (queue group : String) : Bool :=
  match ss queue with
  | some s => s.groups.contains group
  | none => false

theorem carries_iff {ss : Streams} {queue group : String} :
    ss.carries queue group = true ↔ ∃ s, ss queue = some s ∧ group ∈ s.groups := by
  unfold carries
  cases ss queue <;> simp

def put (ss : Streams) (queue : String) (s : Stream) : Streams := Function.update ss queue (some s)

theorem put_same (ss : Streams) (queue : String) (s : Stream) : ss.put queue s queue = some s :=
  Function.update_self ..

theorem put_other (ss : Streams) {queue other : String} (s : Stream) (h : other ≠ queue) :
    ss.put queue s other = ss other :=
  Function.update_of_ne h ..

end Streams

structure GroupInfo where
  name : String
  consumers : Nat
  pending : Nat
  lastDelivered : String
  entriesRead : Option Nat
  lag : Option Nat

namespace Answer

def count : Option Nat → Value
  | some n => .int n
  | none => .nil

def group (x : GroupInfo) : Value := .array
  [text "name", text x.name, text "consumers", .int x.consumers, text "pending", .int x.pending,
    text "last-delivered-id", text x.lastDelivered, text "entries-read", count x.entriesRead,
    text "lag", count x.lag]

def noSuchKey : ServerError := .ofText ("ERR" ++ " " ++ "no such key")

def keyRequired : ServerError := .ofText ("ERR" ++ " " ++ ("The XGROUP subcommand " ++
  "requires the key to exist" ++ (". Note that for CREATE you may want to use the MKSTREAM option " ++
    "to create an empty stream automatically.")))

def busyGroup : ServerError := .ofText "BUSYGROUP Consumer Group name already exists"

def noGroupText (queue group : String) : String :=
  "NOGROUP No such key '" ++ queue ++ "' or consumer group '" ++ group ++
    "' in XREADGROUP with GROUP option"

def noGroup (queue group : String) : ServerError := .ofText (noGroupText queue group)

end Answer

inductive Executes (ss : Streams) : Command → Value → Streams → Prop
  | added (stream id : String) (maxLength : Option Nat) (fields : List Field) :
    Executes ss (.addEntry stream maxLength fields) (Answer.text id)
      (ss.put stream (((ss stream).getD .empty).add (id, fields) maxLength))
  | looked (key : String) : Executes ss (.exists key) (.int (if (ss key).isSome then 1 else 0)) ss
  | listed {stream : String} {s : Stream} (there : ss stream = some s) (xs : List GroupInfo)
    (all : xs.map (·.name) = s.groups) :
    Executes ss (.groups stream) (.array (xs.map Answer.group)) ss
  | unlisted {stream : String} (missing : ss stream = none) :
    Executes ss (.groups stream) (.error Answer.noSuchKey) ss
  | grouped {stream group : String} {s : Stream} (there : ss stream = some s)
    (new : group ∉ s.groups) :
    Executes ss (.createGroup stream group) (.status "OK")
      (ss.put stream { s with groups := group :: s.groups })
  | busy {stream group : String} (carried : ss.carries stream group = true) :
    Executes ss (.createGroup stream group) (.error Answer.busyGroup) ss
  | ungrouped {stream group : String} (missing : ss stream = none) :
    Executes ss (.createGroup stream group) (.error Answer.keyRequired) ss
  | read {group consumer : String} {count blockMillis : Nat} {streams : List String} {v : Value}
    (carried : ∀ q ∈ streams, ss.carries q group = true) (quiet : v.signalled? = none) :
    Executes ss (.readGroup group consumer count blockMillis streams) v ss
  | unread {group consumer : String} {count blockMillis : Nat} {streams : List String} {q : String}
    (mem : q ∈ streams) (lacks : ss.carries q group = false) :
    Executes ss (.readGroup group consumer count blockMillis streams)
      (.error (Answer.noGroup q group)) ss
  /-- What does not concern streams. -/
  | acknowledged (stream group : String) (ids : List String) (v : Value) :
    Executes ss (.acknowledge stream group ids) v ss
  | stored (key field : String) (value : Bytes) (v : Value) : Executes ss (.setField key field value) v ss
  | deleted (key field : String) (v : Value) : Executes ss (.deleteField key field) v ss

/-- A server that opens every connection and answers every command in time. -/
def Executing : Wire.interface.Service Streams
  | ss, .connect _, opening, ss' => (∃ c, opening = .opened c) ∧ ss' = ss
  | ss, .exchange _ [c] _, outcome, ss' => ∃ v, Executes ss c v ss' ∧ outcome = .answers [v]
  | _, .exchange .., _, _ => False

variable {s s' : Session} {ss ss' : Streams} {queue group : String}

theorem judge_text (name what id : String) :
    Session.judge name what Reading.text (.answers [Answer.text id]) = .ok id := by
  have single : Session.single [Answer.text id] = .ok (.bulk (Utf8.encode id)) := rfl
  rw [Session.judge, single, Except.bind, text_encode]

theorem addition_runs {a : Addition} {r : Except Error String} (isOpen : s.closed = false) :
    Runs Executing ((a.serve queue).run s) ss (r, s') ss' ↔
      ∃ id, r = .ok id ∧ s' = s ∧
        ss' = ss.put queue (((ss queue).getD .empty).add (id, a.fields) a.maxLength) := by
  obtain ⟨what, sends⟩ := serve_addition isOpen queue a
  rw [sends]
  constructor
  · rintro ⟨_, _, ⟨v, executes, rfl⟩, heq, rfl⟩
    obtain ⟨rfl, rfl⟩ := Prod.mk.inj heq
    cases executes with
    | added _ id => exact ⟨id, judge_text s'.name what id, rfl, rfl⟩
  · rintro ⟨id, rfl, rfl, rfl⟩
    refine ⟨_, _, ⟨Answer.text id, .added queue id a.maxLength a.fields, rfl⟩, ?_, rfl⟩
    rw [judge_text]

theorem addition_closed {a : Addition} {r : Except Error String} (closed : s.closed = true)
    (run : Runs Executing ((a.serve queue).run s) ss (r, s') ss') : r = .error (.brokerClosed s.name) := by
  have refused (what : String) (run : Runs Executing ((Session.command what
      (.addEntry queue a.maxLength a.fields) Reading.text).run.run s) ss (r, s') ss') :
      r = .error (.brokerClosed s.name) := by
    rw [Session.command_run, closed] at run
    exact (Prod.mk.inj run.1).1
  cases a with
  | entry e maxLength => exact refused _ run
  | placeholder => exact refused _ run

end BrokeredCalls.Redis
