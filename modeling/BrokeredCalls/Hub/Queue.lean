import BrokeredCalls.Envelope
import BrokeredCalls.Table

/-!
One queue of the memory store. Ids follow the wall clock but never go back: a clock that stands or
falls only raises the count within the last millisecond. Each group keeps the id of the last entry it
was given, so reading is taking what lies above.
-/

namespace BrokeredCalls

structure EntryId where
  millis : Nat
  seq : Nat
  deriving DecidableEq, Repr, Inhabited

namespace EntryId

instance : LT EntryId := ⟨fun a b => a.millis < b.millis ∨ a.millis = b.millis ∧ a.seq < b.seq⟩
instance (a b : EntryId) : Decidable (a < b) :=
  inferInstanceAs (Decidable (a.millis < b.millis ∨ a.millis = b.millis ∧ a.seq < b.seq))

theorem lt_def {a b : EntryId} :
    a < b ↔ a.millis < b.millis ∨ a.millis = b.millis ∧ a.seq < b.seq := Iff.rfl

def text (id : EntryId) : String := toString id.millis ++ "-" ++ toString id.seq

def after (last : EntryId) (now : Nat) : EntryId :=
  if last.millis < now then ⟨now, 0⟩ else ⟨last.millis, last.seq + 1⟩

theorem lt_trans {a b c : EntryId} (h : a < b) (k : b < c) : a < c := by
  simp only [lt_def] at *
  omega

theorem lt_irrefl (a : EntryId) : ¬ a < a := by simp [lt_def]

theorem lt_after (last : EntryId) (now : Nat) : last < last.after now := by
  unfold after
  split
  · exact .inl ‹_›
  · exact .inr ⟨rfl, Nat.lt_succ_self _⟩

end EntryId

namespace Hub

structure Entry where
  id : EntryId
  envelope : Envelope
  deriving DecidableEq, Repr

def Entry.delivery (queue : String) (e : Entry) : Delivery :=
  ⟨queue, e.id.text, e.envelope.withEntryId e.id.text⟩

structure Queue where
  /-- Oldest first. -/
  entries : List Entry
  lastId : EntryId
  /-- For each group the id of the last entry delivered to it. -/
  groups : Table String EntryId
  deriving Repr

namespace Queue

def empty : Queue := ⟨[], ⟨0, 0⟩, .empty⟩

/-- Adds an entry and drops the oldest beyond `maxLength`; with no `maxLength` it drops none. -/
def push (q : Queue) (now : Nat) (e : Envelope) (maxLength : Option Nat) : EntryId × Queue :=
  let id := q.lastId.after now
  let all := q.entries ++ [⟨id, e⟩]
  let kept := match maxLength with
    | some n => all.drop (all.length - n)
    | none => all
  (id, { q with entries := kept, lastId := id })

theorem lastId_lt_push (q : Queue) (now : Nat) (e : Envelope) (maxLength : Option Nat) :
    q.lastId < (q.push now e maxLength).1 := EntryId.lt_after _ _

def createGroup (q : Queue) (group : String) : Queue :=
  if q.groups.contains group then q else { q with groups := q.groups.set group q.lastId }

def fresh (q : Queue) (last : EntryId) (count : Nat) : List Entry :=
  (q.entries.filter fun e => last < e.id).take count

theorem mem_fresh {q : Queue} {last : EntryId} {count : Nat} {e : Entry}
    (h : e ∈ q.fresh last count) : e ∈ q.entries ∧ last < e.id := by
  have := List.mem_filter.mp (List.mem_of_mem_take h)
  simpa using this

def take? (q : Queue) (group : String) (count : Nat) : Option (List Entry × Queue) := do
  let last ← q.groups.find? group
  let es := q.fresh last count
  match es.getLast? with
  | some newest => return (es, { q with groups := q.groups.set group newest.id })
  | none => return (es, q)

end Queue
end Hub
end BrokeredCalls
