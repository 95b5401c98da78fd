import BrokeredCalls.Node.Deferred

/-!
What determines a pending list, what each access makes of it, and what a look at it for due tasks comes
to.
-/

namespace BrokeredCalls

namespace TaskQueue

theorem nodup (q : TaskQueue) : q.tasks.Nodup := by
  refine q.ascending.imp ?_
  rintro a _ before rfl
  exact DelayedTask.before_irrefl a before

theorem eq_of_mem_iff {q q' : TaskQueue} (h : ∀ t, t ∈ q ↔ t ∈ q') : q = q' := by
  have hperm : q.tasks.Perm q'.tasks := (List.perm_ext_iff_of_nodup q.nodup q'.nodup).mpr h
  have heq : q.tasks = q'.tasks := hperm.eq_of_pairwise
    (fun a b _ _ hab hba => absurd (hab.trans hba) (DelayedTask.before_irrefl a))
    q.ascending q'.ascending
  cases q
  cases q'
  cases heq
  rfl

theorem erase_first {q : TaskQueue} {t : DelayedTask} {ts : List DelayedTask}
    (first : q.tasks = t :: ts) : (q.erase t).tasks = ts := by
  have fresh : t ∉ ts := (List.nodup_cons.mp (first ▸ q.nodup)).1
  simp only [erase, first, ne_eq, not_true_eq_false, decide_false, Bool.false_eq_true,
    not_false_eq_true, List.filter_cons_of_neg, List.filter_eq_self, decide_eq_true_eq]
  rintro u hu rfl
  exact fresh hu

theorem not_mem_of_peek {q : TaskQueue} (nothing : q.peek = none) (t : DelayedTask) : t ∉ q := by
  simp [mem_def, List.head?_eq_none_iff.mp nothing]

theorem later_of_first {q : TaskQueue} {now : FireTime} {t : DelayedTask} (first : q.peek = some t)
    (later : now < t.fireAt) : ∀ u ∈ q, now < u.fireAt := by
  intro u mem
  rcases (peek_eq_some_iff.mp first).2 u mem with rfl | before
  · exact later
  · exact Int64.lt_of_lt_of_le later before.fireAt_le

inductive Popped (q : TaskQueue) (now : FireTime) : Option DelayedTask × TaskQueue → Prop
  | due (t : DelayedTask) (first : q.peek = some t) (le : t.fireAt ≤ now) :
    Popped q now (some t, q.erase t)
  | early (t : DelayedTask) (first : q.peek = some t) (later : now < t.fireAt) :
    Popped q now (none, q)
  | bare (nothing : q.peek = none) : Popped q now (none, q)

theorem popped_popDue (q : TaskQueue) (now : FireTime) : Popped q now (q.popDue now) := by
  obtain ⟨tasks, ascending⟩ := q
  cases tasks with
  | nil => exact .bare rfl
  | cons t ts =>
    unfold popDue
    by_cases due : t.fireAt ≤ now
    · have gone : (⟨t :: ts, ascending⟩ : TaskQueue).erase t =
          ⟨ts, (List.pairwise_cons.mp ascending).2⟩ :=
        eq_of_mem_iff fun u => by rw [mem_def, erase_first rfl, mem_def]
      simp only [due, if_true, ← gone]
      exact .due t rfl due
    · simp only [due, if_false]
      exact .early t rfl (Int64.not_le.mp due)

inductive Looked (q : TaskQueue) (now : FireTime) : Next × TaskQueue → Prop
  | due (t : DelayedTask) (mem : t ∈ q) (first : ∀ u ∈ q, u = t ∨ t.Before u)
    (le : t.fireAt ≤ now) : Looked q now (.due t, q.erase t)
  | early (n : Next) (not_due : ∀ t, n ≠ .due t) (later : ∀ u ∈ q, now < u.fireAt) :
    Looked q now (n, q)

theorem looked_next (q : TaskQueue) (now : FireTime) : Looked q now (q.next now) := by
  have popped := q.popped_popDue now
  unfold next
  generalize q.popDue now = found at popped ⊢
  cases popped with
  | due t first le =>
    obtain ⟨mem, least⟩ := peek_eq_some_iff.mp first
    exact .due t mem least le
  | early t first later =>
    simp only [first]
    exact .early (.later t) (by intros; simp) (later_of_first first later)
  | bare nothing =>
    simp only [nothing]
    exact .early .nothing (by intros; simp) fun u mem => absurd mem (not_mem_of_peek nothing u)

theorem due_of_next {q q' : TaskQueue} {now : FireTime} {t : DelayedTask}
    (h : q.next now = (.due t, q')) : t ∈ q ∧ t.fireAt ≤ now := by
  have looked := q.looked_next now
  rw [h] at looked
  cases looked with
  | due _ mem first le => exact ⟨mem, le⟩
  | early _ not_due later => exact absurd rfl (not_due t)

theorem next_eq_due_iff {q q' : TaskQueue} {now : FireTime} {t : DelayedTask} :
    q.next now = (.due t, q') ↔ q.peek = some t ∧ t.fireAt ≤ now ∧ q' = q.erase t := by
  have looked := q.looked_next now
  constructor
  · intro h
    rw [h] at looked
    cases looked with
    | due _ mem first le => exact ⟨peek_eq_some_iff.mpr ⟨mem, first⟩, le, rfl⟩
    | early _ not_due later => exact absurd rfl (not_due t)
  · rintro ⟨peeked, le, rfl⟩
    obtain ⟨mem, first⟩ := peek_eq_some_iff.mp peeked
    generalize q.next now = found at looked ⊢
    cases looked with
    | due u mem' first' le' =>
      have same := peek_eq_some_iff.mpr ⟨mem', first'⟩
      obtain rfl := Option.some.inj (same.symm.trans peeked)
      rfl
    | early _ _ later => exact absurd le (Int64.not_le.mpr (later t mem))

theorem next_of_first_later {q : TaskQueue} {now : FireTime} {t : DelayedTask}
    (first : q.peek = some t) (ahead : now < t.fireAt) : q.next now = (.later t, q) := by
  obtain ⟨tasks, ascending⟩ := q
  cases tasks with
  | nil => cases first
  | cons u us =>
    cases first
    unfold next popDue
    simp only [Int64.not_le.mpr ahead, if_false]
    rfl

theorem next_of_nil {q : TaskQueue} (empty : q.tasks = []) (now : FireTime) :
    q.next now = (.nothing, q) := by
  obtain ⟨_, ascending⟩ := q
  cases empty
  rfl

theorem insert_erase {q : TaskQueue} {t : DelayedTask} (tracked : t ∈ q) :
    (q.erase t).insert t = q := by
  refine eq_of_mem_iff fun u => ?_
  rw [mem_insert, mem_erase]
  by_cases same : u = t
  · simp [same, tracked]
  · simp [same]

namespace Access

def adds : Access → List DelayedTask
  | insert t => [t]
  | replace ts | merge ts => ts
  | _ => []

def Drops (t : DelayedTask) : (a : Access) → a.Value → Prop
  | erase u, _ => u = t
  | next _, .due u => u = t
  | replace _, _ => True
  | _, _ => False

theorem mem_run {a : Access} {v : a.Value} {q q' : TaskQueue} {t : DelayedTask}
    (run : a.run q = (v, q')) : t ∈ q' ↔ t ∈ a.adds ∨ t ∈ q ∧ ¬ a.Drops t v := by
  cases a with
  | next now =>
    have looked := q.looked_next now
    rw [show q.next now = (v, q') from run] at looked
    cases looked with
    | due u mem first le => simp [mem_erase, adds, Drops, ne_comm]
    | early _ not_due later =>
      cases v with
      | due u => exact absurd rfl (not_due u)
      | later | nothing => simp [adds, Drops]
  | insert u =>
    obtain ⟨-, rfl⟩ := Prod.mk.inj run
    simp [mem_insert, adds, Drops]
  | erase u =>
    obtain ⟨-, rfl⟩ := Prod.mk.inj run
    simp [mem_erase, adds, Drops, eq_comm]
  | replace ts =>
    obtain ⟨-, rfl⟩ := Prod.mk.inj run
    simp [mem_ofList, adds, Drops]
  | merge ts =>
    obtain ⟨-, rfl⟩ := Prod.mk.inj run
    simp [mem_merge, adds, Drops]
  | snapshot =>
    obtain ⟨-, rfl⟩ := Prod.mk.inj run
    simp [adds, Drops]

end Access
end TaskQueue

namespace Node.Deferred

/-- A round of the fire loop from its look at the pending list on. -/
def rest (s : Shared) (stop : SignalId) (again : Loop) : Routine (Option Loop) := do
  match ← pauseAfter s (← nextStep s) with
  | none => return some again
  | some d =>
    match ← ask (.pauseUnlessStopped d stop) with
    | .abandoned => return none
    | .value _ | .raised => return some again

end Node.Deferred
end BrokeredCalls
