import Mathlib.Data.Finset.Sort
import Mathlib.Data.List.Lex
import Mathlib.Data.Prod.Lex
import BrokeredCalls.Proofs.Pending

/-!
A pending list is a finite set in firing order. An `Agenda` is such a set, ordered by a key that
knows nothing of the list; `answer_agenda` says of one call, and `answerAll_agenda` of any run of
calls, that the list answers as its set does and goes on to show it.
-/

namespace BrokeredCalls

theorem Bytes.compare_eq_lt_iff {a b : Bytes} : Bytes.compare a b = .lt ↔ a < b := by
  induction a generalizing b with
  | nil => cases b <;> simp [Bytes.compare]
  | cons x xs ih =>
    cases b with
    | nil => simp [Bytes.compare]
    | cons y ys =>
      rw [List.cons_lt_cons_iff, ← ih, Bytes.compare]
      by_cases less : x < y
      · simp [less]
      · by_cases greater : y < x
        · simp [less, greater, (UInt8.ne_of_lt greater).symm]
        · obtain rfl := UInt8.le_antisymm (UInt8.not_lt.mp greater) (UInt8.not_lt.mp less)
          simp

theorem Bytes.map_toNat_lt_iff {a b : Bytes} : a.map UInt8.toNat < b.map UInt8.toNat ↔ a < b := by
  induction a generalizing b with
  | nil => cases b <;> simp
  | cons x xs ih =>
    cases b with
    | nil => simp
    | cons y ys => simp [List.cons_lt_cons_iff, ih, UInt8.lt_iff_toNat_lt, UInt8.toNat_inj]

namespace DelayedTask

/-- What tasks are ordered by: the fire time, then the bytes of the service. -/
def key (t : DelayedTask) : ℤ ×ₗ List ℕ :=
  -- as numbers, because bytes carry no linear order to lift
  toLex (t.fireAt.toInt, (Utf8.encode t.service).map UInt8.toNat)

theorem eq_of_key {a b : DelayedTask} (same : a.key = b.key) : a = b := by
  obtain ⟨times, bytes⟩ := Prod.mk.inj (toLex.injective same)
  have services : a.service = b.service := Utf8.encode_injective
    (List.map_injective_iff.mpr (fun _ _ => UInt8.toNat_inj.mp) bytes)
  cases a
  cases b
  cases Int64.toInt_inj.mp times
  cases services
  rfl

instance : LinearOrder DelayedTask := LinearOrder.lift' key fun _ _ => eq_of_key

theorem lt_iff {a b : DelayedTask} : a < b ↔
    a.fireAt < b.fireAt ∨ a.fireAt = b.fireAt ∧ Utf8.encode a.service < Utf8.encode b.service := by
  have keys : a < b ↔ key a < key b := Iff.rfl
  rw [keys, Prod.Lex.lt_iff]
  simp [key, Bytes.map_toNat_lt_iff, Int64.lt_iff_toInt_lt, Int64.toInt_inj]

theorem before_iff_lt {a b : DelayedTask} : a.Before b ↔ a < b := by
  rw [lt_iff, ← Bytes.compare_eq_lt_iff]
  unfold Before compare
  by_cases less : a.fireAt < b.fireAt
  · simp [less]
  · by_cases greater : b.fireAt < a.fireAt
    · simp [less, greater, (Int64.ne_of_lt greater).symm]
    · have same := Int64.le_antisymm (Int64.not_lt.mp greater) (Int64.not_lt.mp less)
      simp [same]

end DelayedTask

namespace TaskQueue

inductive Call where
  | access (a : Access)
  | peek
  | popDue (now : FireTime)

namespace Call

abbrev Value : Call → Type
  | access a => a.Value
  | peek | popDue _ => Option DelayedTask

def run : (c : Call) → TaskQueue → c.Value × TaskQueue
  | access a, q => a.run q
  | peek, q => (q.peek, q)
  | popDue now, q => q.popDue now

abbrev Answered := (c : Call) × c.Value

end Call

def runAll : List Call → TaskQueue → List Call.Answered × TaskQueue
  | [], q => ([], q)
  | c :: cs, q => (⟨c, (c.run q).1⟩ :: (runAll cs (c.run q).2).1, (runAll cs (c.run q).2).2)

end TaskQueue

abbrev Agenda := Finset DelayedTask

namespace Agenda

open TaskQueue (Call)

variable {S : Agenda} {t : DelayedTask}

def first (S : Agenda) : Option DelayedTask :=
  if h : S.Nonempty then some (S.min' h) else none

def answer (S : Agenda) : (c : Call) → c.Value × Agenda
  | .access (.insert t) => (decide (t ∉ S), insert t S)
  | .access (.erase t) => (decide (t ∈ S), S.erase t)
  | .access (.next now) => match S.first with
    | some t => if t.fireAt ≤ now then (.due t, S.erase t) else (.later t, S)
    | none => (.nothing, S)
  | .access (.replace ts) => (ts.toFinset.card, ts.toFinset)
  | .access (.merge ts) => ((), S ∪ ts.toFinset)
  | .access .snapshot => (S.sort, S)
  | .peek => (S.first, S)
  | .popDue now => match S.first with
    | some t => if t.fireAt ≤ now then (some t, S.erase t) else (none, S)
    | none => (none, S)

def answerAll : List Call → Agenda → List Call.Answered × Agenda
  | [], S => ([], S)
  | c :: cs, S =>
    (⟨c, (S.answer c).1⟩ :: (answerAll cs (S.answer c).2).1, (answerAll cs (S.answer c).2).2)

theorem first_eq_some_iff : S.first = some t ↔ t ∈ S ∧ ∀ u ∈ S, t ≤ u := by
  unfold first
  split
  · next full =>
    rw [Option.some.injEq]
    constructor
    · rintro rfl
      exact ⟨S.min'_mem full, S.min'_le⟩
    · rintro ⟨mem, least⟩
      exact le_antisymm (S.min'_le t mem) (least _ (S.min'_mem full))
  · next bare =>
    constructor
    · intro none
      cases none
    · rintro ⟨mem, -⟩
      exact absurd ⟨t, mem⟩ bare

end Agenda

namespace TaskQueue

variable {q rest : TaskQueue} {now : FireTime} {t : DelayedTask}

def agenda (q : TaskQueue) : Agenda := q.tasks.toFinset

@[simp]
theorem mem_agenda : t ∈ q.agenda ↔ t ∈ q := List.mem_toFinset

theorem agenda_insert (q : TaskQueue) (t : DelayedTask) :
    (q.insert t).agenda = Insert.insert t q.agenda := by
  ext u
  simp [mem_insert]

theorem agenda_erase (q : TaskQueue) (t : DelayedTask) : (q.erase t).agenda = q.agenda.erase t := by
  ext u
  simp [mem_erase, and_comm]

theorem agenda_ofList (ts : List DelayedTask) : (ofList ts).agenda = ts.toFinset := by
  ext u
  simp [mem_ofList]

theorem agenda_merge (q : TaskQueue) (ts : List DelayedTask) :
    (q.merge ts).agenda = q.agenda ∪ ts.toFinset := by
  ext u
  simp [mem_merge, or_comm]

theorem ascending_lt (q : TaskQueue) : q.tasks.Pairwise (· < ·) :=
  q.ascending.imp DelayedTask.before_iff_lt.mp

theorem ascending_le (q : TaskQueue) : q.tasks.Pairwise (· ≤ ·) := q.ascending_lt.imp le_of_lt

theorem sort_agenda (q : TaskQueue) : q.agenda.sort = q.tasks :=
  (List.toFinset_sort _ q.nodup).mpr q.ascending_le

theorem sort_filter (q : TaskQueue) (p : DelayedTask → Prop) [DecidablePred p] :
    (q.agenda.filter p).sort = q.tasks.filter p := by
  have members : q.agenda.filter p = (q.tasks.filter p).toFinset := by
    ext u
    simp [mem_def]
  rw [members]
  exact (List.toFinset_sort _ (q.nodup.filter _)).mpr (q.ascending_le.filter _)

theorem card_agenda (q : TaskQueue) : q.agenda.card = q.size :=
  List.toFinset_card_of_nodup q.nodup

theorem first_agenda (q : TaskQueue) : q.agenda.first = q.peek := by
  refine Option.ext fun t => ?_
  rw [Agenda.first_eq_some_iff, peek_eq_some_iff]
  simp [DelayedTask.before_iff_lt, le_iff_eq_or_lt, eq_comm]

theorem answer_popDue (q : TaskQueue) (now : FireTime) :
    q.agenda.answer (.popDue now) = ((q.popDue now).1, (q.popDue now).2.agenda) := by
  have popped := q.popped_popDue now
  generalize q.popDue now = found at popped ⊢
  cases popped with
  | due t first le => simp [Agenda.answer, first_agenda, first, le, agenda_erase]
  | early t first later => simp [Agenda.answer, first_agenda, first, Int64.not_le.mpr later]
  | bare nothing => simp [Agenda.answer, first_agenda, nothing]

theorem answer_next (q : TaskQueue) (now : FireTime) :
    q.agenda.answer (.access (.next now)) = ((q.next now).1, (q.next now).2.agenda) := by
  have popped := q.popped_popDue now
  unfold next
  generalize q.popDue now = found at popped ⊢
  cases popped with
  | due t first le => simp [Agenda.answer, first_agenda, first, le, agenda_erase]
  | early t first later => simp [Agenda.answer, first_agenda, first, Int64.not_le.mpr later]
  | bare nothing => simp [Agenda.answer, first_agenda, nothing]

theorem answer_agenda (c : Call) (q : TaskQueue) :
    q.agenda.answer c = ((c.run q).1, (c.run q).2.agenda) := by
  cases c with
  | access a =>
    cases a with
    | insert t => simp [Agenda.answer, Call.run, Access.run, ← agenda_insert]
    | erase t => simp [Agenda.answer, Call.run, Access.run, agenda_erase]
    | next now => exact answer_next q now
    | replace ts => simp [Agenda.answer, Call.run, Access.run, ← agenda_ofList, card_agenda]
    | merge ts => simp [Agenda.answer, Call.run, Access.run, agenda_merge]
    | snapshot => simp [Agenda.answer, Call.run, Access.run, sort_agenda]
  | peek => simp [Agenda.answer, Call.run, first_agenda]
  | popDue now => exact answer_popDue q now

theorem answerAll_agenda (calls : List Call) (q : TaskQueue) :
    Agenda.answerAll calls q.agenda = ((runAll calls q).1, (runAll calls q).2.agenda) := by
  induction calls generalizing q with
  | nil => rfl
  | cons c calls ih =>
    unfold Agenda.answerAll runAll
    rw [answer_agenda, ih]

example : (runAll [.access (.insert ⟨7, "beta"⟩), .access (.insert ⟨7, "alpha"⟩),
    .access (.erase ⟨7, "gamma"⟩), .access (.erase ⟨7, "beta"⟩)] empty).2.tasks = [⟨7, "alpha"⟩] := by
  decide

theorem tasks_of_popDue (taken : q.popDue now = (some t, rest)) :
    q.tasks = t :: rest.tasks ∧ t.fireAt ≤ now := by
  have popped := q.popped_popDue now
  rw [taken] at popped
  cases popped with
  | due _ first le =>
    obtain ⟨ts, cons⟩ := List.head?_eq_some_iff.mp first
    exact ⟨by rw [erase_first cons, cons], le⟩

theorem later_of_popDue (stayed : q.popDue now = (none, rest)) :
    rest = q ∧ ∀ u ∈ q, now < u.fireAt := by
  have popped := q.popped_popDue now
  rw [stayed] at popped
  cases popped with
  | early t first later => exact ⟨rfl, later_of_first first later⟩
  | bare nothing => exact ⟨rfl, fun u mem => absurd mem (not_mem_of_peek nothing u)⟩

def drain (q : TaskQueue) (now : FireTime) : List DelayedTask × TaskQueue :=
  match taken : q.popDue now with
  | (some t, rest) =>
    have shorter : rest.size < q.size := by simp [size, (tasks_of_popDue taken).1]
    (t :: (rest.drain now).1, (rest.drain now).2)
  | (none, rest) => ([], rest)
termination_by q.size

theorem drain_filter (q : TaskQueue) (now : FireTime) :
    (q.drain now).1 = q.tasks.filter (·.fireAt ≤ now) ∧
      (q.drain now).2.tasks = q.tasks.filter (now < ·.fireAt) := by
  fun_induction drain q now with
  | case1 q t rest taken _ ih =>
    obtain ⟨cons, due⟩ := tasks_of_popDue taken
    have past : ¬ now < t.fireAt := Int64.not_lt.mpr due
    simp [cons, due, past, ih]
  | case2 q rest stayed =>
    obtain ⟨rfl, later⟩ := later_of_popDue stayed
    refine ⟨(List.filter_eq_nil_iff.mpr fun u mem => ?_).symm,
      (List.filter_eq_self.mpr fun u mem => ?_).symm⟩
    · simp [Int64.not_le.mpr (later u mem)]
    · simp [later u mem]

/-- After any calls on an empty list it has answered as the set that they make of the empty one, and
shows that set by fire time and then by the bytes of the service; to take tasks while one is due
gives the due ones in this order and leaves the others. -/
theorem runAll_shows_set (calls : List Call) :
    ∃ answers q S, runAll calls empty = (answers, q) ∧ Agenda.answerAll calls ∅ = (answers, S) ∧
      q.tasks = S.sort ∧
      q.tasks.Pairwise (fun a b => a.fireAt < b.fireAt ∨
        a.fireAt = b.fireAt ∧ Utf8.encode a.service < Utf8.encode b.service) ∧
      ∀ now, ∃ rest, q.drain now = ((S.filter (·.fireAt ≤ now)).sort, rest) ∧
        rest.tasks = (S.filter (now < ·.fireAt)).sort := by
  rcases ran : runAll calls empty with ⟨answers, q⟩
  have answered := answerAll_agenda calls empty
  rw [ran] at answered
  refine ⟨answers, q, q.agenda, rfl, answered, q.sort_agenda.symm,
    q.ascending_lt.imp DelayedTask.lt_iff.mp, fun now => ?_⟩
  obtain ⟨due, later⟩ := q.drain_filter now
  refine ⟨(q.drain now).2, ?_, ?_⟩
  · rw [sort_filter, ← due]
  · rw [sort_filter, ← later]

end TaskQueue
end BrokeredCalls
