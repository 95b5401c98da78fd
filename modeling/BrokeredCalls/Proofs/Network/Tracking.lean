import BrokeredCalls.Proofs.Network.Care
import BrokeredCalls.Proofs.Network.Claims
import BrokeredCalls.Proofs.Pending

/-!
While nodes run, no durable task is forgotten: the task of a field that is there is on the pending list of
a running node, or in the hands of a program of one which is about to settle it.
-/

namespace BrokeredCalls.Network

open Node (Effect Execution)
open Broker (Call)

variable {net : NodeId → Setup} {S S' : State} {u : TaskId} {n : NodeId} {j : Job}

theorem takeAll_queue {g : String} {count : Nat} {names : List String} {h h' : Hub}
    {ds : List Delivery} (ht : Hub.takeAll g count names h = (ds, h')) :
    ∀ d ∈ ds, d.queue ∈ names := by
  induction names generalizing h ds with
  | nil =>
    cases ht
    simp
  | cons name names ih =>
    unfold Hub.takeAll at ht
    split at ht
    · next es q htake =>
      generalize hrest : Hub.takeAll g count names { h with queues := h.queues.set name q } = r at ht
      obtain ⟨rest, h₁⟩ := r
      cases ht
      intro d hd
      rcases List.mem_append.mp hd with hd | hd
      · obtain ⟨e, -, rfl⟩ := List.mem_map.mp hd
        exact List.mem_cons_self
      · exact List.mem_cons_of_mem _ (ih hrest d hd)
    · intro d hd
      exact List.mem_cons_of_mem _ (ih ht d hd)

structure Sound (net : NodeId → Setup) (S : State) : Prop where
  proper : ∀ u n j, S.has u n j → ∀ x ∈ traceOf u S.history, Proper (net n) x.1 x.2
  known : ∀ u n j, S.has u n j → Known (net n) j
  pending : ∀ n, ∀ t ∈ S.pending n, (net n).Attends t.service

theorem Sound.careful (sound : Sound net S) (reach : Reachable net S) {r : Effect}
    {next : r.Answer → Node.Routine Ending} (here : S.tasks u = some ⟨n, j, .ask r next⟩) :
    Careful (net n) (traceOf u S.history) r :=
  ((Network.careful net).kept reach here).1.1 (sound.known u n j ⟨_, here⟩)
    (sound.proper u n j ⟨_, here⟩)

theorem attends_of_access {access : TaskQueue.Access} {v : access.Value} {q q' : TaskQueue}
    {tr : Trail} {node : Setup} (run : access.run q = (v, q')) (lawful : Lawful node tr (.pending access))
    (old : ∀ t ∈ q, node.Attends t.service) : ∀ t ∈ q', node.Attends t.service := by
  intro t ht
  rcases (TaskQueue.Access.mem_run run).mp ht with added | ⟨hold, -⟩
  · cases access with
    | insert u =>
      obtain rfl := List.mem_singleton.mp added
      exact lawful
    | replace ts => exact lawful.scanned t added
    | merge ts => exact lawful t added
    | _ => cases added
  · exact old t hold

theorem pending_of_answers {r : Effect} {a : r.Answer} {h : Hub} {q : TaskQueue}
    (answers : Answers net S n r a h q) :
    (∃ access v, (⟨r, a⟩ : Exchange Node.interface) = ⟨.pending access, v⟩ ∧
      access.run (S.pending n) = (v, q)) ∨ q = S.pending n := by
  cases r with
  | pending access => exact .inl ⟨access, a, rfl, answers.2⟩
  | broker b c => exact .inr answers.2
  | readUnlessStopped => cases a <;> exact .inr answers.2
  | resolve | servicesOn | reading | clock => exact .inr answers.2.2
  | _ => exact .inr answers.2

theorem attends_of_delivered (reach : Reachable net S) {b : BrokerId} {g consumer : String}
    {services : List String} {count : Nat} {block : Duration} {stop : SignalId}
    {ds : List Delivery} {h : Hub} {older : List Event}
    (has : S.has u n j) (history : S.history = .served u
      (.readUnlessStopped b g consumer services count block stop) (.value (.ok ds)) :: older)
    (does : Hub.Does S'.hub S'.now (.call (.readGroup g consumer services count block)) (.ok ds) h)
    (attends : ∀ s ∈ services, (net n).Attends s) : ∀ d ∈ ds, (net n).Attends d.envelope.service := by
  have hrule := (discipline net).rule_of_served reach (history ▸ At.head _) has
  have hqueue : ∀ d ∈ ds, d.queue ∈ services := by
    rcases does.cases with ⟨deadline, hs⟩ | ⟨e, -, heq, -⟩
    · rcases Hub.serve_readGroup hs with ⟨e, heq, -⟩ | ⟨ds', htake, heq⟩
      · cases heq
      · cases heq
        exact takeAll_queue htake
    · cases heq
  intro d hd
  rcases rule_cases hrule with hh | hparticular
  · cases hh
  · cases hparticular with
    | route duty => cases duty
    | read =>
      have hgiven : d ∈ given (traceOf u S.history) := by
        rw [history, traceOf_self]
        exact List.mem_append_right _ hd
      obtain ⟨_, -, hservice, -⟩ := reach.entry_of_given has hgiven
      rw [hservice]
      exact attends d.queue (hqueue d hd)

theorem proper_of_served (sound : Sound net S) (reach : Reachable net S) {r : Effect}
    {next : r.Answer → Node.Routine Ending} {a : r.Answer} {h : Hub} {q : TaskQueue}
    (here : S.tasks u = some ⟨n, j, .ask r next⟩) (answers : Answers net S n r a h q) :
    Proper (net n) r a := by
  have lawful := (sound.careful reach here).lawful
  cases r with
  | resolve | servicesOn => exact answers.1
  | pending access =>
    cases access with
    | next now =>
      cases a with
      | due t => exact sound.pending n t (TaskQueue.due_of_next answers.2).1
      | later | nothing => exact trivial
    | _ => exact trivial
  | readUnlessStopped b g consumer services count block stop =>
    cases a with
    | value result =>
      cases result with
      | ok ds =>
        have step := Step.serve here answers
        exact attends_of_delivered (reach.step step) (step.has reach.founded ⟨_, here⟩) rfl
          answers.1 lawful
      | error e => exact trivial
    | raised => exact trivial
    | abandoned => exact trivial
  | _ => exact trivial

theorem known_of_jobsOf {node : Setup} {tr : Trail} {r : Effect} (lawful : Lawful node tr r)
    {i : Nat} (h : (jobsOf r)[i]? = some j) : Known node j := by
  have hmem := List.mem_of_getElem? h
  cases r with
  | start e =>
    obtain rfl := List.mem_singleton.mp hmem
    exact trivial
  | launch loops =>
    obtain ⟨l, hl, rfl⟩ := List.mem_map.mp hmem
    exact lawful l hl
  | _ => cases hmem

/-- Whoever is asked to add or remove a task by hand is asked for a service of its own. -/
def Direct (net : NodeId → Setup) (H : List Event) : Prop :=
  ∀ n o, .began n o ∈ H → Known (net n) (.operation o)

theorem Sound.record (sound : Sound net S) (f : Founded S) {e : Event} {m : NodeId} {jobs : List Job}
    (known : ∀ (i : Nat) j, jobs[i]? = some j → Known (net m) j)
    (proper : ∀ u r a, e = .served u r a → ∀ n j, S.has u n j → Proper (net n) r a)
    (task : ∀ u r a, e = .served u r a → u.event < S.history.length) :
    Sound net (S.record net e m jobs) := by
  constructor
  · intro u n j has x hx
    rcases mem_traceOf_cons hx with ⟨r, a, rfl, rfl⟩ | hx
    · rcases State.has_record.mp has with ⟨hu, -, -⟩ | ⟨-, old⟩
      · exact absurd hu (Nat.ne_of_lt (task u r a rfl))
      · exact proper u r a rfl n j old
    · rcases State.has_record.mp has with ⟨hu, -, -⟩ | ⟨-, old⟩
      · rw [f.traceOf_eq_nil (Nat.le_of_eq hu.symm)] at hx
        cases hx
      · exact sound.proper u n j old x hx
  · intro u n j has
    rcases State.has_record.mp has with ⟨-, hj, rfl⟩ | ⟨-, has⟩
    · exact known _ _ hj
    · exact sound.known u n j has
  · exact sound.pending

theorem Sound.congr (sound : Sound net S) (history : S'.history = S.history)
    (has : ∀ u n j, S'.has u n j ↔ S.has u n j)
    (pending : ∀ n, ∀ t ∈ S'.pending n, (net n).Attends t.service) : Sound net S' := by
  refine ⟨fun u n j h => ?_, fun u n j h => sound.known u n j ((has u n j).mp h), pending⟩
  rw [history]
  exact sound.proper u n j ((has u n j).mp h)

theorem Sound.stored (sound : Sound net S) {r : Effect} {a : r.Answer} {h : Hub} {q : TaskQueue}
    {tr : Trail} {w : Node.Routine Ending} (answers : Answers net S n r a h q)
    (lawful : Lawful (net n) tr r) :
    ∀ m, ∀ t ∈ ((S.setWork u w).store h n q).pending m, (net m).Attends t.service := by
  intro m t ht
  by_cases hm : m = n
  · subst hm
    replace ht : t ∈ q := by simpa [State.store] using ht
    rcases pending_of_answers answers with ⟨access, v, heq, run⟩ | rfl
    · cases heq
      exact attends_of_access run lawful (sound.pending m) t ht
    · exact sound.pending m t ht
  · replace ht : t ∈ S.pending m := by simpa [State.store, State.setWork, hm] using ht
    exact sound.pending m t ht

theorem Sound.step (sound : Sound net S) (reach : Reachable net S) (step : Step net S S')
    (direct : Direct net S'.history) : Sound net S' := by
  cases step with
  | pass now later => exact ⟨sound.proper, sound.known, sound.pending⟩
  | again here => exact sound.congr rfl (fun _ _ _ => State.has_setWork) sound.pending
  | begin n o =>
    refine sound.record reach.founded (fun i j hj => ?_) (fun u r a h => by cases h)
      (fun u r a h => by cases h)
    cases i with
    | succ i => simp at hj
    | zero =>
      obtain rfl : Job.operation o = j := by simpa using hj
      exact direct n o List.mem_cons_self
  | @serve t n j r next a h q here answers =>
    have has : ∀ u m k, ((S.setWork t (next a)).store h n q).has u m k ↔ S.has u m k :=
      fun u m k => State.has_setWork
    have lawful := (sound.careful reach here).lawful
    have stored : Sound net ((S.setWork t (next a)).store h n q) :=
      sound.congr rfl has (sound.stored answers lawful)
    refine stored.record (reach.founded.congr rfl has) (fun i k hk => known_of_jobsOf lawful hk) ?_ ?_
    · rintro _ _ _ ⟨⟩ m k hk
      obtain ⟨rfl, -⟩ := State.has.unique ((has _ _ _).mp hk) ⟨_, here⟩
      exact proper_of_served sound reach here answers
    · rintro _ _ _ ⟨⟩
      exact reach.founded.lt ⟨_, here⟩

theorem Direct.of_cons {H : List Event} {e : Event} (h : Direct net (e :: H)) : Direct net H :=
  fun n o hm => h n o (List.mem_cons_of_mem _ hm)

theorem Reachable.sound (reach : Reachable net S) (direct : Direct net S.history) : Sound net S := by
  induction reach with
  | start now =>
    refine ⟨?_, ?_, fun n t ht => by cases ht⟩
    · rintro u n j ⟨w, hw⟩
      cases hw
    · rintro u n j ⟨w, hw⟩
      cases hw
  | @step S S' earlier step ih =>
    have older : Direct net S.history := by
      cases step with
      | pass | again => exact direct
      | begin | serve => exact direct.of_cons
    exact (ih older).step earlier step direct

/-- Adds and removes are left to the loops. -/
def Dispatched (H : List Event) : Prop := ∀ n o, .began n o ∈ H → o.alters = none

theorem Dispatched.direct {H : List Event} (h : Dispatched H) : Direct net H := fun n o hm s hs => by
  rw [h n o hm] at hs
  cases hs

def Launched (S : State) (n : NodeId) : Prop :=
  ∃ u j loops, S.has u n j ∧ .served u (.launch loops) () ∈ S.history

def Held (S : State) (n : NodeId) (t : DelayedTask) : Prop :=
  ∃ u j, S.has u n j ∧ Holds t (traceOf u S.history)

/-- A program that holds the task is in progress, and its next request is to settle it. -/
def InProgress (S : State) (n : NodeId) (t : DelayedTask) : Prop :=
  ∃ u j r next, S.tasks u = some ⟨n, j, .ask r next⟩ ∧ Holds t (traceOf u S.history) ∧ Settles t r

/-- How nodes run: their loops alone add and remove tasks, no delete of a field fails, and a node makes
its list anew only before its loops start. -/
structure Running (S : State) : Prop where
  dispatched : Dispatched S.history
  deletes : ∀ u b key field e, .served u (.broker b (.hashDelete key field)) (.error e) ∉ S.history
  reloads : ∀ n u j i loops v k l ts a, S.has u n j → At S.history i (.served u (.launch loops) ()) →
    S.has v n k → At S.history l (.served v (.pending (.replace ts)) a) → l < i

variable {t : DelayedTask}

theorem Reachable.launched (reach : Reachable net S) {l : Node.Loop} (has : S.has u n (.loop l)) :
    Launched S n := by
  cases reach.founded.origin u n _ has with
  | child v j r a parent served job =>
    have hmem := List.mem_of_getElem? job
    cases r with
    | start e => cases List.mem_singleton.mp hmem
    | launch loops => exact ⟨v, j, loops, parent, served.mem⟩
    | _ => cases hmem

theorem Step.history (step : Step net S S') :
    S'.history = S.history ∨ ∃ e, S'.history = e :: S.history := by
  cases step with
  | pass | again => exact .inl rfl
  | begin | serve => exact .inr ⟨_, rfl⟩

theorem Step.mem_history (step : Step net S S') {e : Event} (h : e ∈ S.history) : e ∈ S'.history := by
  rcases step.history with heq | ⟨e', heq⟩
  · exact heq ▸ h
  · exact heq ▸ List.mem_cons_of_mem _ h

theorem Step.at_history (step : Step net S S') {e : Event} {k : Nat} (h : At S.history k e) :
    At S'.history k e := by
  rcases step.history with heq | ⟨e', heq⟩
  · exact heq ▸ h
  · exact heq ▸ h.cons e'

theorem Running.before (running : Running S') (reach : Reachable net S) (step : Step net S S') :
    Running S where
  dispatched n o hm := running.dispatched n o (step.mem_history hm)
  deletes u b key field e hm := running.deletes u b key field e (step.mem_history hm)
  reloads n u j i loops v k l ts a hu hi hv hl :=
    running.reloads n u j i loops v k l ts a (step.has reach.founded hu) (step.at_history hi)
      (step.has reach.founded hv) (step.at_history hl)

theorem Launched.after (launched : Launched S n) (reach : Reachable net S) (step : Step net S S') :
    Launched S' n := by
  obtain ⟨u, j, loops, has, hm⟩ := launched
  exact ⟨u, j, loops, step.has reach.founded has, step.mem_history hm⟩

theorem Running.sound (running : Running S) (reach : Reachable net S) : Sound net S :=
  reach.sound running.dispatched.direct

theorem field_of_answers {r : Effect} {a : r.Answer} {h : Hub} {q : TaskQueue}
    (answers : Answers net S n r a h q) (key field : String) :
    h.field key field = ((Event.served u r a).write key field).getD (S.hub.field key field) := by
  rcases answers.does with ⟨hnone, rfl⟩ | ⟨d, hsome, does⟩
  · simp [Event.write, hnone]
  · rw [Hub.field_of_does does]
    simp [Event.write, hsome]

def Tracked (S : State) (t : DelayedTask) : Prop :=
  ∃ n, Launched S n ∧ (t ∈ S.pending n ∨ Held S n t)

theorem Tracked.quiet (tracked : Tracked S t) (reach : Reachable net S) (step : Step net S S')
    (pending : S'.pending = S.pending) (trace : ∀ u, traceOf u S'.history = traceOf u S.history) :
    Tracked S' t := by
  obtain ⟨n, launched, there⟩ := tracked
  refine ⟨n, launched.after reach step, ?_⟩
  rcases there with there | ⟨u, j, has, held⟩
  · exact .inl (pending ▸ there)
  · exact .inr ⟨u, j, step.has reach.founded has, (trace u).symm ▸ held⟩

section Serve

variable {r : Effect} {next : r.Answer → Node.Routine Ending} {a : r.Answer} {h : Hub} {q : TaskQueue}

theorem kept_or_held (running : Running (S.served net u n r a next h q))
    (reach : Reachable net S) (here : S.tasks u = some ⟨n, j, .ask r next⟩)
    (answers : Answers net S n r a h q) (launched : Launched S n) (there : t ∈ S.pending n) :
    t ∈ q ∨ Holds t (⟨r, a⟩ :: traceOf u S.history) := by
  have step : Step net S (S.served net u n r a next h q) := .serve here answers
  rcases pending_of_answers answers with ⟨access, v, heq, run⟩ | rfl
  · cases heq
    by_cases dropped : access.Drops t v
    · cases access with
      | erase w => exact .inr dropped
      | next now =>
        cases v with
        | due w => exact .inr dropped
        | later | nothing => exact dropped.elim
      | replace ts =>
        -- Its loops run, so the node no longer makes its list anew.
        obtain ⟨w, k, loops, has, hm⟩ := launched
        obtain ⟨i, hi⟩ := exists_at_of_mem hm
        have hlt := running.reloads n w k i loops u j S.history.length ts v
          (step.has reach.founded has) (step.at_history hi) (step.has reach.founded ⟨_, here⟩)
          (At.head _)
        exact absurd hi.lt (Nat.lt_asymm hlt)
      | _ => exact dropped.elim
    · exact .inl ((TaskQueue.Access.mem_run run).mpr (.inr ⟨there, dropped⟩))
  · exact .inl there

theorem settled_or_held (running : Running (S.served net u n r a next h q))
    (answers : Answers net S n r a h q) (careful : Careful (net n) (traceOf u S.history) r)
    (held : Holds t (traceOf u S.history))
    (there : S.hub.field (Key.delay t.service) (Decimal.ofInt64 t.fireAt) ≠ none)
    (untouched : (Event.served u r a).write (Key.delay t.service) (Decimal.ofInt64 t.fireAt) = none) :
    t ∈ q ∨ Holds t (⟨r, a⟩ :: traceOf u S.history) := by
  have settles := careful.settles t held
  cases r with
  | resolve service => exact .inr held
  | pending access =>
    cases access with
    | insert w =>
      obtain rfl : w = t := settles
      exact .inl ((TaskQueue.Access.mem_run answers.2).mpr (.inl (List.mem_singleton_self w)))
    | _ => exact settles.elim
  | broker b c =>
    cases c with
    | hashTake key field =>
      obtain ⟨rfl, rfl⟩ := settles
      cases a with
      | error e => exact .inr ⟨rfl, rfl⟩
      | ok taken =>
        cases taken with
        -- Somebody else took the field before, but it is there.
        | none => exact absurd (Hub.taken_of_does answers.1).symm there
        | some payload => simp [Event.write, deal, Hub.Deed.write, Hub.Deed.change] at untouched
    | hashDelete key field =>
      obtain ⟨rfl, rfl⟩ := settles
      cases a with
      | error e => exact absurd List.mem_cons_self (running.deletes u b _ _ e)
      | ok _ => simp [Event.write, deal, Hub.Deed.write, Hub.Deed.change] at untouched
    | _ => exact settles.elim
  | _ => exact settles.elim

theorem launched_of_write (running : Running S) (reach : Reachable net S) {b : BrokerId}
    {key field : String} {payload : Bytes} {next : Except Error Unit → Node.Routine Ending}
    (here : S.tasks u = some ⟨n, j, .ask (.broker b (.hashSet key field payload)) next⟩) :
    Launched S n := by
  rcases rule_cases ((discipline net).kept reach here).1.1 with hh | hparticular
  · cases hh
  · cases hparticular with
    | write o b service field payload alters =>
      obtain ⟨began, -⟩ := reach.began ⟨_, here⟩
      rw [running.dispatched n o began.mem] at alters
      cases alters
    | route => exact reach.launched ⟨_, here⟩

theorem tracked_here (reach : Reachable net S) (here : S.tasks u = some ⟨n, j, .ask r next⟩)
    (answers : Answers net S n r a h q) (launched : Launched S n)
    (kept : t ∈ q ∨ Holds t (⟨r, a⟩ :: traceOf u S.history)) :
    Tracked (S.served net u n r a next h q) t := by
  have step : Step net S (S.served net u n r a next h q) := .serve here answers
  refine ⟨n, launched.after reach step, kept.imp (fun ht => ?_) fun held => ?_⟩
  · simpa [State.served, State.record, State.store] using ht
  · refine ⟨u, j, step.has reach.founded ⟨_, here⟩, ?_⟩
    show Holds t (traceOf u (.served u r a :: S.history))
    rwa [traceOf_self]

theorem tracked_of_serve (running : Running (S.served net u n r a next h q))
    (reach : Reachable net S) (here : S.tasks u = some ⟨n, j, .ask r next⟩)
    (answers : Answers net S n r a h q)
    (earlier : S.hub.field (Key.delay t.service) (Decimal.ofInt64 t.fireAt) ≠ none → Tracked S t)
    (there : h.field (Key.delay t.service) (Decimal.ofInt64 t.fireAt) ≠ none) :
    Tracked (S.served net u n r a next h q) t := by
  have step : Step net S (S.served net u n r a next h q) := .serve here answers
  have before := running.before reach step
  rw [field_of_answers answers] at there
  cases hwrite : (Event.served u r a).write (Key.delay t.service) (Decimal.ofInt64 t.fireAt) with
  -- A field that this request wrote is in the hands of its program. Any other was there before.
  | some value =>
    rw [hwrite, Option.getD_some] at there
    obtain ⟨payload, rfl⟩ := Option.ne_none_iff_exists'.mp there
    obtain ⟨d, hd, hdeed⟩ := Option.bind_eq_some_iff.mp hwrite
    obtain rfl := Hub.Deed.eq_of_write hdeed
    obtain ⟨b, heq⟩ := exchange_of_deal (by intros; simp) hd
    cases heq
    exact tracked_here reach here answers (launched_of_write before reach here) (.inr ⟨rfl, rfl⟩)
  | none =>
    rw [hwrite, Option.getD_none] at there
    obtain ⟨m, launched, onList | ⟨v, k, hasv, held⟩⟩ := earlier there
    · by_cases hm : m = n
      · subst hm
        exact tracked_here reach here answers launched
          (kept_or_held running reach here answers launched onList)
      · refine ⟨m, launched.after reach step, .inl ?_⟩
        simpa [State.served, State.record, State.store, State.setWork, hm] using onList
    · by_cases hv : v = u
      · subst hv
        obtain ⟨rfl, rfl⟩ := hasv.unique ⟨_, here⟩
        exact tracked_here reach here answers launched
          (settled_or_held running answers ((before.sound reach).careful reach here) held there hwrite)
      · refine ⟨m, launched.after reach step, .inr ⟨v, k, step.has reach.founded hasv, ?_⟩⟩
        show Holds t (traceOf v (.served u r a :: S.history))
        rwa [traceOf_ne (Ne.symm hv)]

end Serve

theorem Reachable.tracked_or_held (reach : Reachable net S) (running : Running S)
    (there : S.hub.field (Key.delay t.service) (Decimal.ofInt64 t.fireAt) ≠ none) : Tracked S t := by
  induction reach with
  | start now => exact absurd rfl there
  | @step S S' earlier step ih =>
    have ih := ih (running.before earlier step)
    cases step with
    | pass now later => exact (ih there).quiet earlier (.pass now later) rfl fun _ => rfl
    | again here => exact (ih there).quiet earlier (.again here) rfl fun _ => rfl
    | begin n o => exact (ih there).quiet earlier (.begin n o) rfl fun _ => rfl
    | serve here answers => exact tracked_of_serve running earlier here answers ih there

theorem Held.inProgress (held : Held S n t) (reach : Reachable net S) (sound : Sound net S) :
    InProgress S n t := by
  obtain ⟨u, j, ⟨w, here⟩, holds⟩ := held
  have kept := ((careful net).kept reach here).1
  cases w with
  | done v =>
    have ending := kept (sound.known u n j ⟨_, here⟩) (sound.proper u n j ⟨_, here⟩)
    exact absurd holds (ending.1 t)
  | ask r next =>
    exact ⟨u, j, r, next, here, holds, (sound.careful reach here).settles t holds⟩

/-- No durable task goes untracked: a running node has it on its list, or is about to settle it. -/
theorem Reachable.tracked {payload : Bytes} (reach : Reachable net S) (running : Running S)
    (there : S.hub.field (Key.delay t.service) (Decimal.ofInt64 t.fireAt) = some payload) :
    ∃ n, Launched S n ∧ (t ∈ S.pending n ∨ InProgress S n t) := by
  have durable : S.hub.field (Key.delay t.service) (Decimal.ofInt64 t.fireAt) ≠ none := by
    simp [there]
  obtain ⟨n, launched, onList | held⟩ := reach.tracked_or_held running durable
  · exact ⟨n, launched, .inl onList⟩
  · exact ⟨n, launched, .inr (held.inProgress reach (running.sound reach))⟩

section Check

def State.nodeOf? (S : State) (u : TaskId) : Option NodeId := (S.tasks u).map (·.node)

/-- The newer event is not a list made anew on a node whose loops the older one starts. -/
def startsLast? (S : State) : (newer older : Event) → Bool
  | .served v (.pending (.replace _)) _, .served u (.launch _) _ => S.nodeOf? v ≠ S.nodeOf? u
  | _, _ => true

def dispatched? : Event → Bool
  | .began _ o => o.alters = none
  | _ => true

def deleted? : Event → Bool
  | .served _ (.broker _ (.hashDelete ..)) (.error _) => false
  | _ => true

theorem State.has.nodeOf? (h : S.has u n j) : S.nodeOf? u = some n := by
  obtain ⟨w, hw⟩ := h
  rw [State.nodeOf?, hw]
  rfl

theorem Dispatched.of_check {H : List Event} (h : H.all dispatched? = true) : Dispatched H :=
  fun n o hm => by simpa [dispatched?] using List.all_eq_true.mp h _ hm

theorem Running.of_check (dispatched : S.history.all dispatched? = true)
    (deleted : S.history.all deleted? = true)
    (order : S.history.Pairwise fun newer older => startsLast? S newer older = true) : Running S where
  dispatched := .of_check dispatched
  deletes u b key field e hm := by simpa [deleted?] using List.all_eq_true.mp deleted _ hm
  reloads n u j i loops v k l ts a hu hi hv hl := by
    rcases Nat.lt_trichotomy l i with hlt | rfl | hlt
    · exact hlt
    · cases hl.inj hi
    · obtain ⟨hi', heq⟩ := List.getElem?_eq_some_iff.mp hi
      obtain ⟨hl', heq'⟩ := List.getElem?_eq_some_iff.mp hl
      have hnot := List.pairwise_iff_getElem.mp (List.pairwise_reverse.mpr order) i l hi' hl' hlt
      rw [heq, heq'] at hnot
      simp [startsLast?, hu.nodeOf?, hv.nodeOf?] at hnot

end Check

/-- A dispatch loop of one of two nodes has written a deferred call, and not tracked it yet. -/
def halfway : State :=
  (State.start ⟨⟨0⟩, 0⟩).play (fun _ => .echo "rpc") <|
    .begin 0 .spawn :: turns 0 0 12 ++ .begin 1 .spawn :: turns 13 0 10 ++
      .begin 0 (.scheduleAt "s" ⟨5⟩ [1]) :: turns 24 0 2 ++ turns 12 1 5

theorem tracked_halfway :
    Running halfway ∧ halfway.hub.field (Key.delay "s") (Decimal.ofInt64 5) = some [1] ∧
      ∃ n, Launched halfway n ∧
        ((⟨5, "s"⟩ : DelayedTask) ∈ halfway.pending n ∨ InProgress halfway n ⟨5, "s"⟩) := by
  have running : Running halfway :=
    .of_check (by decide +kernel) (by decide +kernel) (by decide +kernel)
  have there : halfway.hub.field (Key.delay "s") (Decimal.ofInt64 5) = some [1] := by
    decide +kernel
  exact ⟨running, there, ((Reachable.start _).play _).tracked (t := ⟨5, "s"⟩) running there⟩

end BrokeredCalls.Network
