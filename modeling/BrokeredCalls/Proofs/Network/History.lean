import BrokeredCalls.Proofs.Conduct
import BrokeredCalls.Proofs.Network.Basic

/-!
The history of a network: where each task comes from, what each task asked for, and the run of the
store that the calls of all tasks make up.
-/

namespace BrokeredCalls.Network

open Node (Effect Routine)

def At (H : List Event) (k : Nat) (e : Event) : Prop := H.reverse[k]? = some e

namespace At

variable {H : List Event} {i j k k' : Nat} {e e' : Event} {P : Event → Prop}

theorem cons_iff {x : Event} : At (x :: H) k e ↔ k = H.length ∧ x = e ∨ At H k e := by
  unfold At
  rw [List.reverse_cons, List.getElem?_append]
  rcases Nat.lt_trichotomy k H.length with hk | hk | hk
  · have hne : k ≠ H.length := Nat.ne_of_lt hk
    simp [hk, hne]
  · subst hk
    simp
  · have hne : k ≠ H.length := Nat.ne_of_gt hk
    have hout : H.reverse[k]? = none := List.getElem?_eq_none (by simp; omega)
    have hnot : ¬ k < H.reverse.length := by simp; omega
    have hone : [x][k - H.reverse.length]? = none := List.getElem?_eq_none (by simp; omega)
    rw [if_neg hnot, hone, hout]
    simp [hne]

theorem cons (h : At H k e) (x : Event) : At (x :: H) k e := cons_iff.mpr (.inr h)

theorem head (x : Event) : At (x :: H) H.length x := cons_iff.mpr (.inl ⟨rfl, rfl⟩)

theorem middle (newer : List Event) (x : Event) : At (newer ++ x :: H) H.length x := by
  simp [At]

theorem lt (h : At H k e) : k < H.length := by
  have hk := (List.getElem?_eq_some_iff.mp h).1
  rwa [List.length_reverse] at hk

theorem inj (h : At H k e) (h' : At H k e') : e = e' := Option.some.inj (h.symm.trans h')

theorem mem (h : At H k e) : e ∈ H := List.mem_reverse.mp (List.mem_of_getElem? h)

theorem next_unique (h : At H k e) (h' : At H k' e') (he : P e) (he' : P e') (hi : i < k)
    (hi' : i < k') (none : ∀ m x, i < m → m < k → At H m x → ¬ P x)
    (none' : ∀ m x, i < m → m < k' → At H m x → ¬ P x) : k = k' := by
  rcases Nat.lt_trichotomy k k' with hlt | heq | hlt
  · exact absurd he (none' k e hi hlt h)
  · exact heq
  · exact absurd he' (none k' e' hi' hlt h')

theorem last_unique (h : At H k e) (h' : At H k' e') (he : P e) (he' : P e') (hj : k < j)
    (hj' : k' < j) (none : ∀ m x, k < m → m < j → At H m x → ¬ P x)
    (none' : ∀ m x, k' < m → m < j → At H m x → ¬ P x) : k = k' := by
  rcases Nat.lt_trichotomy k k' with hlt | heq | hlt
  · exact absurd he' (none k' e' hlt hj' h')
  · exact heq
  · exact absurd he (none' k e hlt hj h)

end At

theorem exists_at_of_mem {H : List Event} {e : Event} (h : e ∈ H) : ∃ k, At H k e :=
  List.getElem?_of_mem (List.mem_reverse.mpr h)

def past (H : List Event) (k : Nat) : List Event := H.drop (H.length - k)

theorem past_length (H : List Event) : past H H.length = H := by simp [past]

theorem past_append (newer H : List Event) : past (newer ++ H) H.length = H := by simp [past]

theorem past_cons {H : List Event} {k : Nat} (h : k ≤ H.length) (x : Event) :
    past (x :: H) k = past H k := by
  have hk : H.length + 1 - k = H.length - k + 1 := by omega
  simp [past, hk]

theorem at_past {H : List Event} {k m : Nat} {e : Event} (hk : k ≤ H.length) :
    At (past H k) m e ↔ m < k ∧ At H m e := by
  induction H with
  | nil =>
    obtain rfl : k = 0 := by simpa using hk
    simp [past, At]
  | cons x H ih =>
    rcases Nat.lt_or_eq_of_le hk with hlt | rfl
    · have hle : k ≤ H.length := Nat.le_of_lt_succ hlt
      rw [past_cons hle, ih hle, At.cons_iff]
      refine and_congr_right fun hm => ⟨.inr, ?_⟩
      rintro (⟨rfl, -⟩ | h)
      · omega
      · exact h
    · rw [past_length]
      exact ⟨fun h => ⟨h.lt, h⟩, fun h => h.2⟩

def traceOf (t : TaskId) : List Event → Trace Node.interface
  | [] => []
  | .served u r a :: H => if u = t then ⟨r, a⟩ :: traceOf t H else traceOf t H
  | .began .. :: H => traceOf t H

theorem traceOf_self (t : TaskId) (r : Effect) (a : r.Answer) (H : List Event) :
    traceOf t (.served t r a :: H) = ⟨r, a⟩ :: traceOf t H := if_pos rfl

theorem traceOf_ne {t u : TaskId} (h : u ≠ t) (r : Effect) (a : r.Answer) (H : List Event) :
    traceOf t (.served u r a :: H) = traceOf t H := if_neg h

theorem mem_traceOf_cons {t : TaskId} {e : Event} {H : List Event} {x : Exchange Node.interface}
    (h : x ∈ traceOf t (e :: H)) :
    (∃ r a, e = .served t r a ∧ x = ⟨r, a⟩) ∨ x ∈ traceOf t H := by
  cases e with
  | began => exact .inr h
  | served u r a =>
    by_cases hu : u = t
    · subst hu
      rw [traceOf_self] at h
      exact (List.mem_cons.mp h).imp_left fun hx => ⟨r, a, rfl, hx⟩
    · rw [traceOf_ne hu] at h
      exact .inr h

theorem traceOf_append (t : TaskId) (newer older : List Event) :
    traceOf t (newer ++ older) = traceOf t newer ++ traceOf t older := by
  induction newer with
  | nil => rfl
  | cons e newer ih =>
    cases e with
    | began n o => exact ih
    | served u r a =>
      rw [List.cons_append, traceOf, traceOf, ih]
      split <;> rfl

theorem traceOf_eq_nil {t : TaskId} {H : List Event} (h : ∀ r a, Event.served t r a ∉ H) :
    traceOf t H = [] := by
  induction H with
  | nil => rfl
  | cons e H ih =>
    have hrest := ih fun r a hm => h r a (List.mem_cons_of_mem _ hm)
    cases e with
    | began n o => exact hrest
    | served u r a =>
      have hne : u ≠ t := by
        rintro rfl
        exact h r a List.mem_cons_self
      rw [traceOf_ne hne, hrest]

theorem mem_traceOf {t : TaskId} {r : Effect} {a : r.Answer} {H : List Event} :
    (⟨r, a⟩ : Exchange Node.interface) ∈ traceOf t H ↔ Event.served t r a ∈ H := by
  induction H with
  | nil => simp [traceOf]
  | cons e H ih =>
    cases e with
    | began n o => simpa [traceOf] using ih
    | served u s b =>
      by_cases hu : u = t
      · subst hu
        rw [traceOf_self, List.mem_cons, List.mem_cons, ih]
        refine or_congr_left ⟨fun h => ?_, fun h => ?_⟩
        · cases h
          rfl
        · cases h
          rfl
      · have hne : Event.served t r a ≠ .served u s b := by
          intro h
          cases h
          exact hu rfl
        rw [traceOf_ne hu, List.mem_cons, ih]
        simp [hne]

theorem At.next_or_last {H : List Event} {u : TaskId} {j : Nat} {r : Effect} {x : r.Answer}
    (h : At H j (.served u r x)) :
    (∃ older, traceOf u H = ⟨r, x⟩ :: older) ∧ (∀ k s b, j < k → ¬ At H k (.served u s b)) ∨
      ∃ k s b older, j < k ∧ At H k (.served u s b) ∧ traceOf u (past H k) = ⟨r, x⟩ :: older ∧
        ∀ i s b, j < i → i < k → ¬ At H i (.served u s b) := by
  induction H with
  | nil => cases h
  | cons e H ih =>
    rcases At.cons_iff.mp h with ⟨rfl, rfl⟩ | there
    · refine .inl ⟨⟨_, traceOf_self u r x H⟩, fun k s b after later => ?_⟩
      exact absurd later.lt (Nat.not_lt.mpr after)
    · rcases ih there with ⟨⟨older, last⟩, none⟩ | ⟨k, s, b, older, after, next, trace, none⟩
      · by_cases own : ∃ s b, e = .served u s b
        · obtain ⟨s, b, rfl⟩ := own
          refine .inr ⟨H.length, s, b, older, there.lt, At.head _, ?_, fun i s' b' after before later => ?_⟩
          · rwa [past_cons (Nat.le_refl _), past_length]
          · rcases At.cons_iff.mp later with ⟨rfl, -⟩ | later
            · exact Nat.lt_irrefl _ before
            · exact none i s' b' after later
        · refine .inl ⟨⟨older, ?_⟩, fun k s b after later => ?_⟩
          · cases e with
            | began n o => exact last
            | served v s b =>
              rw [traceOf_ne (fun same => own ⟨s, b, by rw [same]⟩)]
              exact last
          · rcases At.cons_iff.mp later with ⟨-, rfl⟩ | later
            · exact own ⟨s, b, rfl⟩
            · exact none k s b after later
      · refine .inr ⟨k, s, b, older, after, next.cons e, ?_, fun i s' b' after before later => ?_⟩
        · rwa [past_cons (Nat.le_of_lt next.lt)]
        · rcases At.cons_iff.mp later with ⟨rfl, -⟩ | later
          · exact absurd next.lt (Nat.lt_asymm before)
          · exact none i s' b' after before later

/-- Answers that a request can get. Only calls on queues name a missing queue. -/
def Credible : (r : Effect) → r.Answer → Prop
  | .broker _ _, .error e => e.isTransport = true ∨ ∃ q, e = .missingQueue q
  | _, _ => True

structure Discipline (net : NodeId → Setup) where
  rule : NodeId → Job → Trace Node.interface → Effect → Prop
  ending : NodeId → Job → Trace Node.interface → Ending → Prop
  works : ∀ (n : NodeId) (j : Job),
    Program.Obeys ⟨Credible, rule n j⟩ (ending n j) [] (j.work (net n).shared)
  again : ∀ (n : NodeId) (j : Job) (tr : Trace Node.interface) (l : Node.Loop),
    ending n j tr (.again l) →
      Program.Obeys ⟨Credible, rule n j⟩ (ending n j) tr (round (net n).shared l)

variable {net : NodeId → Setup} {S S' : State}

def State.has (S : State) (t : TaskId) (n : NodeId) (j : Job) : Prop :=
  ∃ w, S.tasks t = some ⟨n, j, w⟩

theorem State.has.unique {t : TaskId} {n n' : NodeId} {j j' : Job} (h : S.has t n j)
    (h' : S.has t n' j') : n = n' ∧ j = j' := by
  obtain ⟨w, hw⟩ := h
  obtain ⟨w', hw'⟩ := h'
  have heq := hw.symm.trans hw'
  cases heq
  exact ⟨rfl, rfl⟩

inductive Origin (S : State) (t : TaskId) (n : NodeId) : Job → Prop
  | user (o : Operation) (began : At S.history t.event (.began n o)) (first : t.index = 0) :
    Origin S t n (.operation o)
  | child {j : Job} (u : TaskId) (j' : Job) (r : Effect) (a : r.Answer) (parent : S.has u n j')
    (served : At S.history t.event (.served u r a)) (job : (jobsOf r)[t.index]? = some j) :
    Origin S t n j

structure Founded (S : State) : Prop where
  origin : ∀ t n j, S.has t n j → Origin S t n j
  task : ∀ t r a, .served t r a ∈ S.history → ∃ n j, S.has t n j

namespace State

variable {t u : TaskId} {n m : NodeId} {j : Job}

theorem tasks_setWork_self {w w' : Routine Ending} (h : S.tasks t = some ⟨n, j, w⟩) :
    (S.setWork t w').tasks t = some ⟨n, j, w'⟩ := by
  simp [setWork, h]

theorem tasks_setWork_ne {w : Routine Ending} (h : u ≠ t) : (S.setWork t w).tasks u = S.tasks u :=
  if_neg h

theorem has_setWork {w : Routine Ending} : (S.setWork t w).has u m j ↔ S.has u m j := by
  unfold has
  by_cases hu : u = t
  · subst hu
    constructor
    · rintro ⟨w', hw'⟩
      obtain ⟨τ, hτ, heq⟩ := Option.map_eq_some_iff.mp ((if_pos rfl).symm.trans hw')
      cases heq
      exact ⟨_, hτ⟩
    · rintro ⟨w', hw'⟩
      exact ⟨w, tasks_setWork_self hw'⟩
  · rw [tasks_setWork_ne hu]

theorem has_record {e : Event} {jobs : List Job} :
    (S.record net e n jobs).has t m j ↔
      t.event = S.history.length ∧ jobs[t.index]? = some j ∧ m = n ∨
        t.event ≠ S.history.length ∧ S.has t m j := by
  unfold has record
  by_cases ht : t.event = S.history.length
  · simp only [ht, if_true, Option.map_eq_some_iff, true_and, ne_eq, not_true_eq_false, false_and,
      or_false]
    constructor
    · rintro ⟨w, j', hj', heq⟩
      cases heq
      exact ⟨hj', rfl⟩
    · rintro ⟨hj, rfl⟩
      exact ⟨_, j, hj, rfl⟩
  · simp [ht]

end State

theorem Founded.lt (f : Founded S) {t : TaskId} {n : NodeId} {j : Job} (h : S.has t n j) :
    t.event < S.history.length := by
  cases f.origin t n j h with
  | user o began first => exact began.lt
  | child u j' r a parent served job => exact served.lt

theorem Founded.traceOf_eq_nil (f : Founded S) {t : TaskId} (h : S.history.length ≤ t.event) :
    traceOf t S.history = [] := by
  refine Network.traceOf_eq_nil fun r a hm => ?_
  obtain ⟨n, j, hj⟩ := f.task t r a hm
  exact absurd (f.lt hj) (Nat.not_lt.mpr h)

theorem Founded.has_record (f : Founded S) {t : TaskId} {n m : NodeId} {j : Job} {e : Event}
    {jobs : List Job} (h : S.has t m j) : (S.record net e n jobs).has t m j :=
  State.has_record.mpr (.inr ⟨Nat.ne_of_lt (f.lt h), h⟩)

theorem Origin.record (f : Founded S) {t : TaskId} {n m : NodeId} {j : Job} {e : Event}
    {jobs : List Job} (h : Origin S t m j) : Origin (S.record net e n jobs) t m j := by
  cases h with
  | user o began first => exact .user o (began.cons e) first
  | child u j' r a parent served job =>
    exact .child u j' r a (f.has_record parent) (served.cons e) job

theorem Founded.record (f : Founded S) {n : NodeId} {e : Event} {jobs : List Job}
    (new : ∀ i j, jobs[i]? = some j → Origin (S.record net e n jobs) ⟨S.history.length, i⟩ n j)
    (task : ∀ t r a, e = .served t r a → ∃ n j, S.has t n j) :
    Founded (S.record net e n jobs) := by
  constructor
  · intro t m j h
    rcases State.has_record.mp h with ⟨ht, hj, rfl⟩ | ⟨-, h⟩
    · obtain ⟨k, i⟩ := t
      cases ht
      exact new i j hj
    · exact (f.origin t m j h).record f
  · intro t r a h
    rcases List.mem_cons.mp h with h | h
    · obtain ⟨n', j, hj⟩ := task t r a h.symm
      exact ⟨n', j, f.has_record hj⟩
    · obtain ⟨n', j, hj⟩ := f.task t r a h
      exact ⟨n', j, f.has_record hj⟩

theorem Origin.congr {t : TaskId} {n : NodeId} {j : Job} (h : Origin S t n j)
    (history : S'.history = S.history) (has : ∀ t n j, S'.has t n j ↔ S.has t n j) :
    Origin S' t n j := by
  cases h with
  | user o began first => exact .user o (history ▸ began) first
  | child u j' r a parent served job =>
    exact .child u j' r a ((has u n j').mpr parent) (history ▸ served) job

theorem Founded.congr (f : Founded S) (history : S'.history = S.history)
    (has : ∀ t n j, S'.has t n j ↔ S.has t n j) : Founded S' := by
  constructor
  · intro t n j h
    exact (f.origin t n j ((has t n j).mp h)).congr history has
  · intro t r a h
    rw [history] at h
    obtain ⟨n, j, hj⟩ := f.task t r a h
    exact ⟨n, j, (has t n j).mpr hj⟩

theorem Founded.step (f : Founded S) (step : Step net S S') : Founded S' := by
  cases step with
  | pass now later => exact f.congr rfl fun t n j => Iff.rfl
  | begin n o =>
    refine f.record (fun i j hj => ?_) fun t r a h => by cases h
    cases i with
    | succ i => simp at hj
    | zero =>
      obtain rfl : Job.operation o = j := by simpa using hj
      exact .user o (At.head _) rfl
  | @serve t n j r next a h q here answers =>
    have has : ∀ u m k, ((S.setWork t (next a)).store h n q).has u m k ↔ S.has u m k :=
      fun u m k => State.has_setWork
    have f₁ : Founded ((S.setWork t (next a)).store h n q) := f.congr rfl has
    have here₁ : ((S.setWork t (next a)).store h n q).has t n j := (has t n j).mpr ⟨_, here⟩
    refine f₁.record (fun i k hk => ?_) fun u r' a' heq => ?_
    · exact .child t j r a (f₁.has_record here₁) (At.head _) hk
    · cases heq
      exact ⟨n, j, here₁⟩
  | again here => exact f.congr rfl fun t n j => State.has_setWork

theorem Reachable.founded (reach : Reachable net S) : Founded S := by
  induction reach with
  | start now =>
    refine ⟨fun t n j h => ?_, fun t r a h => by cases h⟩
    obtain ⟨w, hw⟩ := h
    cases hw
  | step earlier step ih => exact ih.step step

theorem Step.has (f : Founded S) (step : Step net S S') {t : TaskId} {n : NodeId} {j : Job}
    (h : S.has t n j) : S'.has t n j := by
  cases step with
  | pass now later => exact h
  | begin m o => exact f.has_record h
  | again here => exact State.has_setWork.mpr h
  | @serve u m k r next a hub q here answers =>
    have has : ∀ t n j, ((S.setWork u (next a)).store hub m q).has t n j ↔ S.has t n j :=
      fun t n j => State.has_setWork
    have f₁ : Founded ((S.setWork u (next a)).store hub m q) := f.congr rfl has
    exact f₁.has_record ((has t n j).mpr h)

theorem Reachable.before (reach : Reachable net S) {t : TaskId} {r : Effect} {a : r.Answer} {k : Nat}
    (served : At S.history k (.served t r a)) :
    ∃ S₀ n j next h q, Reachable net S₀ ∧ S₀.history = past S.history k ∧
      S₀.tasks t = some ⟨n, j, .ask r next⟩ ∧ Answers net S₀ n r a h q ∧
      ∀ u m i, S₀.has u m i → S.has u m i := by
  induction reach with
  | start now => cases served
  | @step S S' earlier step ih =>
    have old (hold : At S.history k (.served t r a)) (hpast : past S'.history k = past S.history k) :
        ∃ S₀ n j next h q, Reachable net S₀ ∧ S₀.history = past S'.history k ∧
          S₀.tasks t = some ⟨n, j, .ask r next⟩ ∧ Answers net S₀ n r a h q ∧
          ∀ u m i, S₀.has u m i → S'.has u m i := by
      obtain ⟨S₀, n, j, next, h, q, hr, hh, ht, ha, hhas⟩ := ih hold
      exact ⟨S₀, n, j, next, h, q, hr, hh.trans hpast.symm, ht, ha,
        fun u m i hi => step.has earlier.founded (hhas u m i hi)⟩
    cases step with
    | pass now later => exact old served rfl
    | again here => exact old served rfl
    | begin m o =>
      rcases At.cons_iff.mp served with ⟨-, heq⟩ | hold
      · cases heq
      · exact old hold (past_cons (Nat.le_of_lt hold.lt) _)
    | @serve u m j r' next a' h q here answers =>
      rcases At.cons_iff.mp served with ⟨rfl, heq⟩ | hold
      · cases heq
        refine ⟨S, m, j, next, h, q, earlier, ?_, here, answers,
          fun u m i hi => Step.has earlier.founded (.serve here answers) hi⟩
        exact ((past_cons (Nat.le_refl _) _).trans (past_length _)).symm
      · exact old hold (past_cons (Nat.le_of_lt hold.lt) _)

theorem Reachable.child (reach : Reachable net S) {u : TaskId} {n : NodeId} {k i : Nat} {r : Effect}
    {x : r.Answer} {j' parent : Job} (served : At S.history k (.served u r x)) (has : S.has u n parent)
    (job : (jobsOf r)[i]? = some j') : S.has ⟨k, i⟩ n j' := by
  induction reach with
  | start now => cases served
  | @step S S' earlier step ih =>
    have old (served : At S.history k (.served u r x)) : S'.has ⟨k, i⟩ n j' := by
      obtain ⟨n', parent', has'⟩ := earlier.founded.task _ _ _ served.mem
      obtain ⟨rfl, rfl⟩ := has.unique (step.has earlier.founded has')
      exact step.has earlier.founded (ih served has')
    cases step with
    | pass | again => exact old served
    | begin =>
      rcases At.cons_iff.mp served with ⟨-, heq⟩ | served
      · cases heq
      · exact old served
    | @serve v m job' r' next x' h q here answers =>
      rcases At.cons_iff.mp served with ⟨rfl, heq⟩ | served
      · cases heq
        obtain ⟨rfl, -⟩ := has.unique (Step.has earlier.founded (.serve here answers) ⟨_, here⟩)
        exact State.has_record.mpr (.inl ⟨rfl, job, rfl⟩)
      · exact old served

def deal : Exchange Node.interface → Option Hub.Deed
  | ⟨.broker _ c, a⟩ => some ⟨.call c, a⟩
  | ⟨.readUnlessStopped _ group consumer services count block _, .value a⟩ =>
    some ⟨.call (.readGroup group consumer services count block), a⟩
  | _ => none

def exchanges : List Event → Trace Node.interface
  | [] => []
  | .served _ r a :: H => ⟨r, a⟩ :: exchanges H
  | .began .. :: H => exchanges H

def deeds (H : List Event) : List Hub.Deed := (exchanges H).filterMap deal

theorem deeds_of_none {t : TaskId} {r : Effect} {a : r.Answer} (h : deal ⟨r, a⟩ = none)
    (H : List Event) : deeds (.served t r a :: H) = deeds H := List.filterMap_cons_none h

theorem deeds_of_some {t : TaskId} {r : Effect} {a : r.Answer} {d : Hub.Deed}
    (h : deal ⟨r, a⟩ = some d) (H : List Event) : deeds (.served t r a :: H) = d :: deeds H :=
  List.filterMap_cons_some h

theorem Answers.does {n : NodeId} {r : Effect} {a : r.Answer} {h : Hub} {q : TaskQueue}
    (answers : Answers net S n r a h q) :
    (deal ⟨r, a⟩ = none ∧ h = S.hub) ∨
      ∃ d, deal ⟨r, a⟩ = some d ∧ Hub.Does S.hub S.now d.1 d.2 h := by
  cases r with
  | broker b c => exact .inr ⟨_, rfl, answers.1⟩
  | readUnlessStopped b group consumer services count block stop =>
    cases a with
    | value a => exact .inr ⟨_, rfl, answers.1⟩
    | raised => exact .inl ⟨rfl, answers.1⟩
    | abandoned => exact .inl ⟨rfl, answers.1⟩
  | pending access => exact .inl ⟨rfl, answers.1⟩
  | resolve | servicesOn | reading | clock => exact .inl ⟨rfl, answers.2.1⟩
  | _ => exact .inl ⟨rfl, answers.1⟩

theorem Reachable.run (reach : Reachable net S) :
    ∃ ts, Hub.Run .empty ts S.hub ∧ Hub.deeds ts = deeds S.history := by
  induction reach with
  | start now => exact ⟨[], .start, rfl⟩
  | @step S S' earlier step ih =>
    obtain ⟨ts, run, heq⟩ := ih
    cases step with
    | pass now later => exact ⟨ts, run, heq⟩
    | begin n o => exact ⟨ts, run, heq⟩
    | again here => exact ⟨ts, run, heq⟩
    | @serve t n j r next a h q here answers =>
      rcases answers.does with ⟨hnone, rfl⟩ | ⟨d, hsome, does⟩
      · exact ⟨ts, run, heq.trans (deeds_of_none hnone _).symm⟩
      · refine ⟨⟨S.hub, S.now, d.1, d.2, h⟩ :: ts, .step ⟨S.hub, S.now, d.1, d.2, h⟩ run does, ?_⟩
        show d :: Hub.deeds ts = _
        rw [heq]
        exact (deeds_of_some hsome _).symm

theorem Answers.credible {n : NodeId} {r : Effect} {a : r.Answer} {h : Hub} {q : TaskQueue}
    (answers : Answers net S n r a h q) : Credible r a := by
  cases r with
  | broker b c =>
    cases a with
    | ok v => exact trivial
    | error e => exact answers.1.error
  | _ => exact trivial

namespace Discipline

variable (D : Discipline net)

def Good (n : NodeId) (j : Job) (w : Routine Ending) (tr : Trace Node.interface) : Prop :=
  Program.Obeys ⟨Credible, D.rule n j⟩ (D.ending n j) tr w ∧
    Conduct.Conforms ⟨Credible, D.rule n j⟩ tr

theorem good_record (f : Founded S) {e : Event} {m : NodeId} {jobs : List Job}
    (old : ∀ t n j w, S.tasks t = some ⟨n, j, w⟩ → D.Good n j w (traceOf t (e :: S.history)))
    (task : ∀ t r a, e = .served t r a → ∃ n j, S.has t n j)
    {t : TaskId} {n : NodeId} {j : Job} {w : Routine Ending}
    (here : (S.record net e m jobs).tasks t = some ⟨n, j, w⟩) :
    D.Good n j w (traceOf t (e :: S.history)) := by
  by_cases ht : t.event = S.history.length
  · have hnone : ∀ r a, Event.served t r a ∉ e :: S.history := by
      intro r a hm
      rcases List.mem_cons.mp hm with hm | hm
      · obtain ⟨n', j', hj'⟩ := task t r a hm.symm
        exact absurd ht (Nat.ne_of_lt (f.lt hj'))
      · obtain ⟨n', j', hj'⟩ := f.task t r a hm
        exact absurd ht (Nat.ne_of_lt (f.lt hj'))
    simp only [State.record, ht, if_true, Option.map_eq_some_iff] at here
    obtain ⟨k, -, heq⟩ := here
    cases heq
    rw [traceOf_eq_nil hnone]
    exact ⟨D.works m j, trivial⟩
  · have hold : S.tasks t = some ⟨n, j, w⟩ := by simpa [State.record, ht] using here
    exact old t n j w hold

theorem kept (reach : Reachable net S) {t : TaskId} {n : NodeId} {j : Job} {w : Routine Ending}
    (here : S.tasks t = some ⟨n, j, w⟩) : D.Good n j w (traceOf t S.history) := by
  induction reach generalizing t n j w with
  | start now => cases here
  | @step S S' earlier step ih =>
    cases step with
    | pass now later => exact ih here
    | begin m o =>
      have old : ∀ t n j w, S.tasks t = some ⟨n, j, w⟩ →
          D.Good n j w (traceOf t (Event.began m o :: S.history)) := fun t n j w h => ih h
      exact D.good_record earlier.founded old (fun t r a h => by cases h) here
    | @again u m k l there =>
      by_cases ht : t = u
      · subst ht
        rw [State.tasks_setWork_self there] at here
        cases here
        obtain ⟨ended, conforms⟩ := ih there
        exact ⟨D.again n j _ l ended, conforms⟩
      · rw [State.tasks_setWork_ne ht] at here
        exact ih here
    | @serve u m k r next a h q there answers =>
      have has : ∀ t n j, ((S.setWork u (next a)).store h m q).has t n j ↔ S.has t n j :=
        fun t n j => State.has_setWork
      have f : Founded ((S.setWork u (next a)).store h m q) := earlier.founded.congr rfl has
      refine D.good_record f (fun t n j w hold => ?_) (fun t r' a' heq => ?_) here
      · by_cases ht : t = u
        · subst ht
          have hnow : (S.setWork t (next a)).tasks t = some ⟨m, k, next a⟩ :=
            State.tasks_setWork_self there
          cases hnow.symm.trans hold
          obtain ⟨asks, conforms⟩ := ih there
          show D.Good m k (next a) (traceOf t (.served t r a :: S.history))
          rw [traceOf_self]
          exact ⟨asks.2 a answers.credible, asks.1, answers.credible, conforms⟩
        · have hsame : S.tasks t = some ⟨n, j, w⟩ := (State.tasks_setWork_ne ht).symm.trans hold
          show D.Good n j w (traceOf t (.served u r a :: S.history))
          rw [traceOf_ne (Ne.symm ht)]
          exact ih hsame
      · cases heq
        exact ⟨m, k, (has u m k).mpr ⟨_, there⟩⟩

theorem rule_of_served (reach : Reachable net S) {t : TaskId} {r : Effect} {a : r.Answer} {k : Nat}
    (served : At S.history k (.served t r a)) {n : NodeId} {j : Job} (has : S.has t n j) :
    D.rule n j (traceOf t (past S.history k)) r := by
  obtain ⟨S₀, n', j', next, h, q, reach₀, hpast, here, -, keeps⟩ := reach.before served
  obtain ⟨rfl, rfl⟩ := has.unique (keeps _ _ _ ⟨_, here⟩)
  have kept := (D.kept reach₀ here).1.1
  rwa [hpast] at kept

end Discipline
end BrokeredCalls.Network
