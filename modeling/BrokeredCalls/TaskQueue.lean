import BrokeredCalls.FireTime
import BrokeredCalls.Text.Utf8

/-!
The pending deferred calls of a process: a set of tasks kept in firing order, by fire time and then
by the bytes of the service name. The `mem_` lemmas say what each operation does to the set;
`peek_eq_some_iff` says which task comes next.
-/

namespace BrokeredCalls

structure DelayedTask where
  fireAt : FireTime
  service : String
  deriving DecidableEq, Repr, Inhabited

namespace DelayedTask

def compare (a b : DelayedTask) : Ordering :=
  if a.fireAt < b.fireAt then .lt
  else if b.fireAt < a.fireAt then .gt
  else Bytes.compare (Utf8.encode a.service) (Utf8.encode b.service)

def Before (a b : DelayedTask) : Prop := a.compare b = .lt

instance (a b : DelayedTask) : Decidable (a.Before b) := inferInstanceAs (Decidable (_ = _))

theorem compare_eq_iff {a b : DelayedTask} : a.compare b = .eq ↔ a = b := by
  constructor
  · intro h
    unfold compare at h
    split at h
    · cases h
    · split at h
      · cases h
      · next hab hba =>
        have ht : a.fireAt = b.fireAt :=
          Int64.le_antisymm (Int64.not_lt.mp hba) (Int64.not_lt.mp hab)
        have hs := Utf8.encode_injective (Bytes.compare_eq_iff.mp h)
        cases a; cases b; simp_all
  · rintro rfl
    simp [compare, Int64.lt_irrefl, Bytes.compare_eq_iff]

theorem compare_swap (a b : DelayedTask) : (a.compare b).swap = b.compare a := by
  unfold compare
  by_cases h : a.fireAt < b.fireAt
  · simp [h, Int64.lt_asymm h]
  · by_cases h' : b.fireAt < a.fireAt
    · simp [h, h']
    · simp [h, h', Bytes.compare_swap]

theorem Before.trans {a b c : DelayedTask} (h : a.Before b) (k : b.Before c) : a.Before c := by
  unfold Before compare at *
  simp only [Int64.lt_iff_toInt_lt] at *
  have := @Bytes.compare_trans (Utf8.encode a.service) (Utf8.encode b.service)
    (Utf8.encode c.service)
  grind

theorem before_irrefl (a : DelayedTask) : ¬ a.Before a := by
  simp [Before, compare_eq_iff.mpr]

theorem Before.fireAt_le {a b : DelayedTask} (h : a.Before b) : a.fireAt ≤ b.fireAt := by
  unfold Before compare at h
  split at h
  · next hlt => exact Int64.le_of_lt hlt
  · split at h
    · cases h
    · next hba => exact Int64.not_lt.mp hba

end DelayedTask

structure TaskQueue where
  tasks : List DelayedTask
  ascending : tasks.Pairwise DelayedTask.Before

namespace TaskQueue

def empty : TaskQueue := ⟨[], .nil⟩

instance : Inhabited TaskQueue := ⟨empty⟩
instance : Membership DelayedTask TaskQueue := ⟨fun q t => t ∈ q.tasks⟩
instance (q : TaskQueue) (t : DelayedTask) : Decidable (t ∈ q) :=
  inferInstanceAs (Decidable (t ∈ q.tasks))

theorem mem_def {q : TaskQueue} {t : DelayedTask} : t ∈ q ↔ t ∈ q.tasks := Iff.rfl

def size (q : TaskQueue) : Nat := q.tasks.length

/-- Puts a task where firing order wants it; one that is there already stays. -/
def insertInto (t : DelayedTask) : List DelayedTask → List DelayedTask
  | [] => [t]
  | u :: us => match t.compare u with
    | .lt => t :: u :: us
    | .eq => u :: us
    | .gt => u :: insertInto t us

theorem mem_insertInto {t u : DelayedTask} {us : List DelayedTask} :
    u ∈ insertInto t us ↔ u = t ∨ u ∈ us := by
  induction us with
  | nil => simp [insertInto]
  | cons v vs ih =>
    unfold insertInto
    split
    · simp
    · next h => simp [DelayedTask.compare_eq_iff.mp h]
    · simp [ih, or_left_comm]

theorem ascending_insertInto {t : DelayedTask} {us : List DelayedTask}
    (h : us.Pairwise DelayedTask.Before) : (insertInto t us).Pairwise DelayedTask.Before := by
  induction us with
  | nil => simp [insertInto]
  | cons v vs ih =>
    obtain ⟨hv, hvs⟩ := List.pairwise_cons.mp h
    unfold insertInto
    split
    · next hlt =>
      refine List.pairwise_cons.mpr ⟨fun w hw => ?_, h⟩
      rcases List.mem_cons.mp hw with rfl | hw
      · exact hlt
      · exact DelayedTask.Before.trans hlt (hv w hw)
    · exact h
    · next hgt =>
      refine List.pairwise_cons.mpr ⟨fun w hw => ?_, ih hvs⟩
      rcases mem_insertInto.mp hw with rfl | hw
      · unfold DelayedTask.Before
        rw [← DelayedTask.compare_swap, hgt]
        rfl
      · exact hv w hw

def insert (q : TaskQueue) (t : DelayedTask) : TaskQueue :=
  ⟨insertInto t q.tasks, ascending_insertInto q.ascending⟩

theorem mem_insert {q : TaskQueue} {t u : DelayedTask} : u ∈ q.insert t ↔ u = t ∨ u ∈ q :=
  mem_insertInto

def erase (q : TaskQueue) (t : DelayedTask) : TaskQueue :=
  ⟨q.tasks.filter (· ≠ t), q.ascending.filter _⟩

theorem mem_erase {q : TaskQueue} {t u : DelayedTask} : u ∈ q.erase t ↔ u ∈ q ∧ u ≠ t := by
  simp [mem_def, erase]

def merge (q : TaskQueue) (ts : List DelayedTask) : TaskQueue := ts.foldl insert q

theorem mem_merge {q : TaskQueue} {ts : List DelayedTask} {u : DelayedTask} :
    u ∈ q.merge ts ↔ u ∈ ts ∨ u ∈ q := by
  induction ts generalizing q with
  | nil => simp [merge]
  | cons t ts ih =>
    have : q.merge (t :: ts) = (q.insert t).merge ts := rfl
    rw [this, ih, mem_insert, List.mem_cons]
    grind

def ofList (ts : List DelayedTask) : TaskQueue := empty.merge ts

theorem mem_ofList {ts : List DelayedTask} {u : DelayedTask} : u ∈ ofList ts ↔ u ∈ ts := by
  rw [ofList, mem_merge]
  simp [mem_def, empty]

def peek (q : TaskQueue) : Option DelayedTask := q.tasks.head?

theorem peek_eq_some_iff {q : TaskQueue} {t : DelayedTask} :
    q.peek = some t ↔ t ∈ q ∧ ∀ u ∈ q, u = t ∨ t.Before u := by
  obtain ⟨ts, h⟩ := q
  cases ts with
  | nil => simp [peek, mem_def]
  | cons v vs =>
    obtain ⟨hv, -⟩ := List.pairwise_cons.mp h
    simp only [peek, mem_def, List.head?_cons, Option.some.injEq]
    constructor
    · rintro rfl
      exact ⟨by simp, fun u hu => (List.mem_cons.mp hu).imp_right (hv u)⟩
    · rintro ⟨hm, hall⟩
      rcases List.mem_cons.mp hm with rfl | hm
      · rfl
      · rcases hall v (by simp) with h | h
        · exact h
        · exact absurd ((hv t hm).trans h) (DelayedTask.before_irrefl v)

def popDue (q : TaskQueue) (now : FireTime) : Option DelayedTask × TaskQueue :=
  match q with
  | ⟨[], h⟩ => (none, ⟨[], h⟩)
  | ⟨t :: ts, h⟩ =>
    if t.fireAt ≤ now then (some t, ⟨ts, (List.pairwise_cons.mp h).2⟩) else (none, ⟨t :: ts, h⟩)

inductive Next where
  | due (t : DelayedTask)
  | later (t : DelayedTask)
  | nothing
  deriving DecidableEq, Repr

def next (q : TaskQueue) (now : FireTime) : Next × TaskQueue :=
  match q.popDue now with
  | (some t, rest) => (.due t, rest)
  | (none, _) => match q.peek with
    | some t => (.later t, q)
    | none => (.nothing, q)

/-- One access to a pending list while nobody else has it. -/
inductive Access where
  | insert (t : DelayedTask)
  | erase (t : DelayedTask)
  | next (now : FireTime)
  | replace (ts : List DelayedTask)
  | merge (ts : List DelayedTask)
  | snapshot

namespace Access

abbrev Value : Access → Type
  | insert _ | erase _ => Bool
  | next _ => Next
  | replace _ => Nat
  | merge _ => Unit
  | snapshot => List DelayedTask

/-- The answer to `insert` is whether the task is new, to `erase` whether it was there, to `replace`
how many tasks there are now. -/
def run : (a : Access) → TaskQueue → a.Value × TaskQueue
  | insert t, q => (!decide (t ∈ q), q.insert t)
  | erase t, q => (decide (t ∈ q), q.erase t)
  | next now, q => q.next now
  | replace ts, _ => ((ofList ts).size, ofList ts)
  | merge ts, q => ((), q.merge ts)
  | snapshot, q => (q.tasks, q)

end Access
end TaskQueue
end BrokeredCalls
