import Mathlib.Logic.Relation
import BrokeredCalls.Proofs.Network.Marks
import BrokeredCalls.Proofs.Network.Tracking
import BrokeredCalls.Proofs.Network.Turns

/-!
In which order a node starts its deferred calls. A task that stands first on the list stays ahead of
those behind it until it was started, found gone or cancelled, however often its claim fails and whatever
else comes and goes meanwhile.
-/

namespace BrokeredCalls.Network

open Node (Effect Execution)

variable {net : NodeId → Setup} {S₀ S S' : State} {u f : TaskId} {n m : NodeId} {j : Job}
  {a b t : DelayedTask} {tr : Trail} {i k : Nat}

abbrev Later (net : NodeId → Setup) (S₀ S : State) : Prop := Relation.ReflTransGen (Step net) S₀ S

/-- A fire loop has the task from the list, and neither put it back nor started it. -/
def Grasped (t : DelayedTask) (tr : Trail) : Prop := Holds t tr ∨ Taken t tr

def FiresOn (S : State) (f : TaskId) (n : NodeId) : Prop :=
  ∃ stop last, S.has f n (.loop (.fire stop last))

def Claiming (S : State) (n : NodeId) (t : DelayedTask) : Prop :=
  ∃ f, FiresOn S f n ∧ Grasped t (traceOf f S.history)

inductive Clears (S : State) (n : NodeId) (t : DelayedTask) : Event → Prop
  | started (f : TaskId) (e : Execution) (fires : FiresOn S f n) (service : e.service = t.service)
    (key : e.replyKey = Key.deferredReply t.service t.fireAt) :
    Clears S n t (.served f (.start e) ())
  | gone (f : TaskId) (b : BrokerId) (fires : FiresOn S f n) :
    Clears S n t (.served f
      (.broker b (.hashTake (Key.delay t.service) (Decimal.ofInt64 t.fireAt))) (.ok none))
  | cancelled (u : TaskId) (b : BrokerId) (consumer : String) (services : List String)
    (stop : SignalId) (d : Delivery)
    (has : S.has u n (.loop (.dispatch b consumer services stop)))
    (handed : d ∈ given (traceOf u S.history)) (cancels : Cancels d t) :
    Clears S n t (.served u (.pending (.erase t)) true)

def Cleared (S₀ S : State) (n : NodeId) (t : DelayedTask) (k : Nat) : Prop :=
  ∃ i e, S₀.history.length ≤ i ∧ i < k ∧ At S.history i e ∧ Clears S n t e

section Loop

variable {s : Node.Shared}

theorem had_or_due {r : Effect} {x : r.Answer} (firing : Firing s tr r) (orderly : Orderly tr r)
    (grasped : Grasped t (⟨r, x⟩ :: tr)) :
    Grasped t tr ∨ ∃ now, (⟨r, x⟩ : Exchange Node.interface) = ⟨.pending (.next now), .due t⟩ := by
  cases orderly with
  | start e u taken => exact absurd grasped (by simp [Grasped, Holds, Taken])
  | claim b u held =>
    have same : IsField t (Key.delay u.service) (Decimal.ofInt64 u.fireAt) := by
      cases x with
      | error e => simpa [Grasped, Holds, Taken] using grasped
      | ok found =>
        cases found with
        | none => simp [Grasped, Holds, Taken] at grasped
        | some payload =>
          simp only [Grasped, Holds, Taken, false_or] at grasped
          exact grasped.1
    rw [same.unique ⟨rfl, rfl⟩]
    exact .inl (.inl held)
  | calm h idle =>
    have held := grasped.resolve_right (Idle.calm h x t)
    cases r with
    | broker b c =>
      cases c with
      | hashSet =>
        cases firing with
        | harmless hh => cases hh
      | hashTake => cases h
      | _ => exact held.elim
    | pending access =>
      cases access with
      | erase => cases h
      | next now =>
        cases x with
        | due u =>
          obtain rfl : u = t := held
          exact .inr ⟨now, rfl⟩
        | later | nothing => exact held.elim
      | _ => exact held.elim
    | resolve => exact .inl (.inl held)
    | _ => exact held.elim

theorem taken_of_starts {e : Execution} (firing : Firing s tr (.start e))
    (orderly : Orderly tr (.start e)) (key : e.replyKey = Key.deferredReply t.service t.fireAt) :
    Taken t tr := by
  cases orderly with
  | calm h idle => cases h
  | start e u taken =>
    cases firing with
    | harmless hh => cases hh
    | start b u payload older claimed =>
      subst claimed
      obtain ⟨service, fireAt⟩ := Key.deferredReply_injective key
      exact ⟨⟨congrArg Key.delay service, congrArg Decimal.ofInt64 fireAt⟩, taken.2⟩

end Loop

theorem Reachable.firing (reach : Reachable net S) (fires : FiresOn S u n) {r : Effect}
    {next : r.Answer → Node.Routine Ending} (here : S.tasks u = some ⟨n, j, .ask r next⟩) :
    Firing (net n).shared (traceOf u S.history) r ∧ Orderly (traceOf u S.history) r := by
  obtain ⟨stop, last, has⟩ := fires
  obtain ⟨-, rfl⟩ := has.unique ⟨_, here⟩
  exact ⟨((discipline net).kept reach here).1.1, ((turnTaking net).kept reach here).1.1⟩

theorem Reachable.claiming_of_start (reach : Reachable net S) {e : Execution}
    {next : Unit → Node.Routine Ending} (here : S.tasks u = some ⟨n, j, .ask (.start e) next⟩)
    (key : e.replyKey = Key.deferredReply t.service t.fireAt) :
    FiresOn S u n ∧ Taken t (traceOf u S.history) := by
  have kept := (discipline net).kept reach here
  rcases loop_of_start kept.1.1 with ⟨b, consumer, services, stop, rfl⟩ | ⟨stop, last, rfl, -⟩
  · have dispatching : Dispatching (net n).shared b (traceOf u S.history) (.start e) := kept.1.1
    cases dispatching with
    | harmless hh => cases hh
    | route rest duty next =>
      have owed : Effect.start e ∈ duties (net n).shared b (traceOf u S.history) := by simp [next]
      obtain ⟨d, handed, hduty⟩ := List.mem_filterMap.mp owed
      obtain ⟨entry, hd, -, -⟩ := reach.entry_of_given ⟨_, here⟩ handed
      have hid : d.id = entry.id.text := congrArg Delivery.id hd
      rw [duty_start hduty, hid] at key
      exact absurd key (Key.reply_ne_deferredReply _ _ _ _)
  · have fires : FiresOn S u n := ⟨stop, last, _, here⟩
    obtain ⟨firing, orderly⟩ := reach.firing fires here
    exact ⟨fires, taken_of_starts firing orderly key⟩

theorem Reachable.written_full (reach : Reachable net S) (dispatched : Dispatched S.history)
    {service : String} {time : FireTime} {payload : Bytes}
    (wrote : Wrote S.history i service time payload) : payload ≠ [] := by
  obtain ⟨w, b, served⟩ := wrote
  generalize Key.delay service = key at served
  obtain ⟨n, j, has⟩ := reach.founded.task _ _ _ served.mem
  rcases rule_cases ((discipline net).rule_of_served reach served has) with hh | particular
  · cases hh
  · cases particular with
    | write o b service field payload alters =>
      obtain ⟨began, -⟩ := reach.began has
      rw [dispatched n o began.mem] at alters
      cases alters
    | route =>
      obtain ⟨d, -, hduty⟩ := given_of_routed (reach.conforms has)
        (mem_routed (mem_traceOf.mpr served.mem) rfl)
      rintro rfl
      unfold duty at hduty
      split at hduty
      · cases hduty
      · split at hduty
        · next time' due =>
          split at hduty
          · cases hduty
          · next real =>
            simp only [Option.some.injEq, Effect.broker.injEq, Broker.Call.hashSet.injEq] at hduty
            simp [Envelope.isTombstone, due, hduty] at real
        · cases hduty

section Step

theorem FiresOn.after (fires : FiresOn S f n) (reach : Reachable net S) (step : Step net S S') :
    FiresOn S' f n := by
  obtain ⟨stop, last, has⟩ := fires
  exact ⟨stop, last, step.has reach.founded has⟩

theorem traceOf_suffix (step : Step net S S') (u : TaskId) :
    traceOf u S.history <:+ traceOf u S'.history := by
  rcases step.history with heq | ⟨e, heq⟩
  · exact heq ▸ List.suffix_refl _
  · rw [heq, ← List.singleton_append, traceOf_append]
    exact List.suffix_append _ _

theorem given_of_suffix {older newer : Trail} (h : older <:+ newer) : given older ⊆ given newer := by
  obtain ⟨later, rfl⟩ := h
  induction later with
  | nil => exact List.Subset.refl _
  | cons x later ih => exact List.Subset.trans ih (given_subset x)

theorem Clears.after {e : Event} (clears : Clears S n t e) (reach : Reachable net S)
    (step : Step net S S') : Clears S' n t e := by
  cases clears with
  | started f e fires service key => exact .started f e (fires.after reach step) service key
  | gone f b fires => exact .gone f b (fires.after reach step)
  | cancelled u b consumer services stop d has handed cancels =>
    exact .cancelled u b consumer services stop d (step.has reach.founded has)
      (given_of_suffix (traceOf_suffix step u) handed) cancels

theorem Cleared.after (cleared : Cleared S₀ S n t k) (reach : Reachable net S)
    (step : Step net S S') : Cleared S₀ S' n t k := by
  obtain ⟨i, e, since, before, there, clears⟩ := cleared
  exact ⟨i, e, since, before, step.at_history there, clears.after reach step⟩

theorem Step.has_of_asked (step : Step net S S') (reach : Reachable net S)
    (asked : traceOf f S'.history ≠ []) (has : S'.has f n j) : S.has f n j := by
  have founded := reach.founded
  cases step with
  | pass => exact has
  | again => exact State.has_setWork.mp has
  | begin =>
    rcases State.has_record.mp has with ⟨new, -, -⟩ | ⟨-, old⟩
    · exact absurd (founded.traceOf_eq_nil (Nat.le_of_eq new.symm)) asked
    · exact old
  | @serve u m k r next x h q here answers =>
    rcases State.has_record.mp has with ⟨new, -, -⟩ | ⟨-, old⟩
    · have hne : u ≠ f := by
        rintro rfl
        exact absurd new (Nat.ne_of_lt (founded.lt ⟨_, here⟩))
      rw [State.record, traceOf_ne hne] at asked
      exact absurd (founded.traceOf_eq_nil (Nat.le_of_eq new.symm)) asked
    · exact State.has_setWork.mp old

theorem Grasped.asked (grasped : Grasped t tr) : tr ≠ [] := by
  rintro rfl
  exact grasped.elim id id

theorem FiresOn.of_grasped (fires : FiresOn S' f n) (reach : Reachable net S) (step : Step net S S')
    (grasped : Grasped t (traceOf f S'.history)) : FiresOn S f n := by
  obtain ⟨stop, last, has⟩ := fires
  exact ⟨stop, last, step.has_of_asked reach grasped.asked has⟩

end Step

def Unreplaced (S₀ S : State) (n : NodeId) : Prop :=
  ∀ k u j ts count, S₀.history.length ≤ k →
    At S.history k (.served u (.pending (.replace ts)) count) → ¬ S.has u n j

/-- One loop fires the tasks of the node, and its loops alone add and remove them. -/
structure Steady (S₀ S : State) (n : NodeId) : Prop where
  dispatched : Dispatched S.history
  single : ∀ f f', FiresOn S f n → FiresOn S f' n → f = f'
  kept : Unreplaced S₀ S n

theorem Steady.before (steady : Steady S₀ S' n) (reach : Reachable net S) (step : Step net S S') :
    Steady S₀ S n where
  dispatched m o hm := steady.dispatched m o (step.mem_history hm)
  single f f' fires fires' := steady.single f f' (fires.after reach step) (fires'.after reach step)
  kept k u j ts count since there has :=
    steady.kept k u j ts count since (step.at_history there) (step.has reach.founded has)

/-- The earlier task was not dealt with yet, and the later one is not being claimed. -/
structure Waits (S : State) (n : NodeId) (a b : DelayedTask) : Prop where
  there : a ∈ S.pending n ∨ Claiming S n a
  unclaimed : ¬ Claiming S n b

theorem Waits.quiet (waits : Waits S n a b) (reach : Reachable net S) (step : Step net S S')
    (pending : S'.pending = S.pending) (trace : ∀ f, traceOf f S'.history = traceOf f S.history) :
    Waits S' n a b where
  there := by
    rcases waits.there with listed | ⟨f, fires, grasped⟩
    · exact .inl (pending ▸ listed)
    · exact .inr ⟨f, fires.after reach step, (trace f).symm ▸ grasped⟩
  unclaimed := by
    rintro ⟨f, fires, grasped⟩
    exact waits.unclaimed ⟨f, fires.of_grasped reach step grasped, trace f ▸ grasped⟩

section Serve

variable {r : Effect} {next : r.Answer → Node.Routine Ending} {x : r.Answer} {h : Hub} {q : TaskQueue}

theorem Waits.unclaimed_of_serve (waits : Waits S n a b) (before : a.Before b)
    (steady : Steady S₀ S n) (reach : Reachable net S)
    (here : S.tasks u = some ⟨m, j, .ask r next⟩) (answers : Answers net S m r x h q) :
    ¬ Claiming (S.served net u m r x next h q) n b := by
  rintro ⟨f, fires', grasped⟩
  have fires := fires'.of_grasped reach (.serve here answers) grasped
  change Grasped b (traceOf f (.served u r x :: S.history)) at grasped
  by_cases hf : u = f
  · subst hf
    obtain ⟨stop, last, has⟩ := fires
    obtain ⟨rfl, rfl⟩ := has.unique ⟨_, here⟩
    have fires : FiresOn S u n := ⟨stop, last, has⟩
    obtain ⟨firing, orderly⟩ := reach.firing fires here
    rw [traceOf_self] at grasped
    rcases had_or_due firing orderly grasped with old | ⟨now, due⟩
    · exact waits.unclaimed ⟨u, fires, old⟩
    · cases due
      rcases waits.there with listed | ⟨f', fires₁, grasped₁⟩
      · obtain ⟨first, -⟩ := TaskQueue.next_eq_due_iff.mp answers.2
        rcases (TaskQueue.peek_eq_some_iff.mp first).2 a listed with rfl | after
        · exact DelayedTask.before_irrefl a before
        · exact DelayedTask.before_irrefl a (before.trans after)
      · obtain rfl := steady.single f' u fires₁ fires
        rcases grasped₁ with held | taken
        · have sound := reach.sound steady.dispatched.direct
          exact (sound.careful reach here).settles a held
        · obtain ⟨e, heq, -⟩ := starts_of_taken firing orderly taken
          cases heq
  · rw [traceOf_ne hf] at grasped
    exact waits.unclaimed ⟨f, fires, grasped⟩

theorem rule_next {s : Node.Shared} {now : FireTime} (h : rule s j tr (.pending (.next now))) :
    ∃ stop last, j = .loop (.fire stop last) := by
  cases j with
  | execution e =>
    have h : Executing e tr (.pending (.next now)) := h
    cases h
  | operation o =>
    have altering {service : String} {t : FireTime}
        (h : Altering service t tr (.pending (.next now))) : False := by
      cases h with
      | harmless hh => cases hh
    cases o with
    | call service payload timeout =>
      have h : Calling service payload tr (.pending (.next now)) := h
      cases h
    | add => exact (altering h).elim
    | remove => exact (altering h).elim
    | _ =>
      have h : Managing tr (.pending (.next now)) := h
      cases h with
      | harmless hh => cases hh
  | loop l =>
    cases l with
    | fire stop last => exact ⟨stop, last, rfl⟩
    | dispatch b consumer services stop =>
      have h : Dispatching s b tr (.pending (.next now)) := h
      cases h with
      | harmless hh => cases hh
      | route rest duty => cases duty

theorem there_of_listed (steady : Steady S₀ (S.served net u m r x next h q) n)
    (since : S₀.history.length ≤ S.history.length) (reach : Reachable net S)
    (here : S.tasks u = some ⟨m, j, .ask r next⟩) (answers : Answers net S m r x h q)
    (listed : a ∈ S.pending n) :
    (a ∈ (S.served net u m r x next h q).pending n ∨ Claiming (S.served net u m r x next h q) n a) ∨
      Clears (S.served net u m r x next h q) n a (.served u r x) := by
  have step : Step net S (S.served net u m r x next h q) := .serve here answers
  by_cases hm : n = m
  · subst hm
    have stored : (S.served net u n r x next h q).pending n = q := by
      simp [State.served, State.record, State.store]
    rcases pending_of_answers answers with ⟨access, v, heq, run⟩ | rfl
    · cases heq
      by_cases dropped : access.Drops a v
      · have turn := ((turnTaking net).kept reach here).1.1
        cases access with
        | erase w =>
          obtain rfl : w = a := dropped
          obtain rfl : true = v := by
            have := congrArg Prod.fst run
            simpa [TaskQueue.Access.run, listed] using this
          cases j with
          | execution e => exact absurd rfl (turn w)
          | operation o =>
            obtain ⟨began, -⟩ := reach.began ⟨_, here⟩
            have alone := steady.dispatched n o (step.mem_history began.mem)
            exact absurd rfl (turn alone w)
          | loop l =>
            cases l with
            | fire stop last =>
              cases turn with
              | calm h => cases h
            | dispatch b consumer services stop =>
              obtain ⟨d, handed, cancels⟩ := turn w rfl
              exact .inr (.cancelled u b consumer services stop d (step.has reach.founded ⟨_, here⟩)
                (given_of_suffix (traceOf_suffix step u) handed) cancels)
        | next now =>
          cases v with
          | due w =>
            obtain rfl : w = a := dropped
            obtain ⟨stop, last, rfl⟩ := rule_next ((discipline net).kept reach here).1.1
            refine .inl (.inr ⟨u, ⟨stop, last, step.has reach.founded ⟨_, here⟩⟩, .inl ?_⟩)
            change Holds w (traceOf u (.served u (.pending (.next now)) (.due w) :: S.history))
            rw [traceOf_self]
            rfl
          | later | nothing => exact dropped.elim
        | replace ts =>
          exact absurd (step.has reach.founded ⟨_, here⟩)
            (steady.kept S.history.length u j ts v since (At.head _))
        | _ => exact dropped.elim
      · have stays := (TaskQueue.Access.mem_run run).mpr (.inr ⟨listed, dropped⟩)
        exact .inl (.inl (by rwa [stored]))
    · exact .inl (.inl (by rwa [stored]))
  · refine .inl (.inl ?_)
    simpa [State.served, State.record, State.store, State.setWork, hm] using listed

theorem there_of_claiming (steady : Steady S₀ (S.served net u m r x next h q) n)
    (reach : Reachable net S) (here : S.tasks u = some ⟨m, j, .ask r next⟩)
    (answers : Answers net S m r x h q) (claiming : Claiming S n a) :
    (a ∈ (S.served net u m r x next h q).pending n ∨ Claiming (S.served net u m r x next h q) n a) ∨
      Clears (S.served net u m r x next h q) n a (.served u r x) := by
  have step : Step net S (S.served net u m r x next h q) := .serve here answers
  obtain ⟨f, fires, grasped⟩ := claiming
  have fires' := fires.after reach step
  by_cases hf : u = f
  · subst hf
    obtain ⟨stop, last, has⟩ := fires
    obtain ⟨rfl, rfl⟩ := has.unique ⟨_, here⟩
    obtain ⟨firing, orderly⟩ := reach.firing ⟨stop, last, has⟩ here
    have still (grasped : Grasped a (⟨r, x⟩ :: traceOf u S.history)) :
        Claiming (S.served net u n r x next h q) n a := by
      refine ⟨u, fires', ?_⟩
      change Grasped a (traceOf u (.served u r x :: S.history))
      rwa [traceOf_self]
    rcases grasped with held | taken
    · have sound := reach.sound (steady.before reach step).dispatched.direct
      have settles := (sound.careful reach here).settles a held
      cases r with
      | resolve service => exact .inl (.inr (still (.inl held)))
      | pending access =>
        cases access with
        | insert w =>
          obtain rfl : w = a := settles
          have listed := (TaskQueue.Access.mem_run answers.2).mpr (.inl (List.mem_singleton_self w))
          refine .inl (.inl ?_)
          simpa [State.served, State.record, State.store] using listed
        | _ => exact settles.elim
      | broker b c =>
        cases c with
        | hashTake key field =>
          obtain ⟨rfl, rfl⟩ := settles
          cases x with
          | error e => exact .inl (.inr (still (.inl ⟨rfl, rfl⟩)))
          | ok found =>
            cases found with
            | none => exact .inr (.gone u b fires')
            | some payload =>
              have full : payload ≠ [] := by
                obtain ⟨i, wrote, -, -⟩ := (reach.step step).write_of_seized ⟨b, At.head _⟩
                exact (reach.step step).written_full steady.dispatched wrote
              exact .inl (.inr (still (.inr ⟨⟨rfl, rfl⟩, full⟩)))
        | hashDelete =>
          cases firing with
          | harmless hh => cases hh
        | _ => exact settles.elim
      | _ => exact settles.elim
    · obtain ⟨e, rfl, service, key⟩ := starts_of_taken firing orderly taken
      exact .inr (.started u e fires' service key)
  · refine .inl (.inr ⟨f, fires', ?_⟩)
    change Grasped a (traceOf f (.served u r x :: S.history))
    rwa [traceOf_ne hf]

theorem Waits.serve (waits : Waits S n a b) (before : a.Before b)
    (steady : Steady S₀ (S.served net u m r x next h q) n)
    (since : S₀.history.length ≤ S.history.length) (reach : Reachable net S)
    (here : S.tasks u = some ⟨m, j, .ask r next⟩) (answers : Answers net S m r x h q) :
    Waits (S.served net u m r x next h q) n a b ∨
      Clears (S.served net u m r x next h q) n a (.served u r x) := by
  have earlier := steady.before reach (.serve here answers)
  have unclaimed := waits.unclaimed_of_serve before earlier reach here answers
  rcases waits.there with listed | claiming
  · exact (there_of_listed steady since reach here answers listed).imp_left (⟨·, unclaimed⟩)
  · exact (there_of_claiming steady reach here answers claiming).imp_left (⟨·, unclaimed⟩)

end Serve

theorem Reachable.later (reach : Reachable net S₀) (later : Later net S₀ S) : Reachable net S := by
  induction later with
  | refl => exact reach
  | tail _ step ih => exact ih.step step

theorem length_le_of_later (later : Later net S₀ S) : S₀.history.length ≤ S.history.length := by
  induction later with
  | refl => exact Nat.le_refl _
  | tail _ step ih =>
    rcases step.history with heq | ⟨e, heq⟩
    · exact heq ▸ ih
    · exact heq ▸ Nat.le_succ_of_le ih

theorem Steady.waits_or_cleared (reach : Reachable net S₀) (later : Later net S₀ S)
    (steady : Steady S₀ S n) (before : a.Before b) (waits : Waits S₀ n a b) :
    Waits S n a b ∨ Cleared S₀ S n a S.history.length := by
  induction later with
  | refl => exact .inl waits
  | @tail S S' later step ih =>
    have reached := reach.later later
    rcases ih (steady.before reached step) with waits | cleared
    · cases step with
      | pass now later => exact .inl (waits.quiet reached (.pass now later) rfl fun _ => rfl)
      | again here => exact .inl (waits.quiet reached (.again here) rfl fun _ => rfl)
      | begin m o => exact .inl (waits.quiet reached (.begin m o) rfl fun _ => rfl)
      | serve here answers =>
        have since := length_le_of_later later
        rcases waits.serve before steady since reached here answers with waits | clears
        · exact .inl waits
        · exact .inr ⟨_, _, since, Nat.lt_succ_self _, At.head _, clears⟩
    · obtain ⟨i, e, since, _, there, clears⟩ := cleared.after reached step
      exact .inr ⟨i, e, since, there.lt, there, clears⟩

def StartsAfter (S₀ S : State) (n : NodeId) (a b : DelayedTask) : Prop :=
  ∀ k u e j, S₀.history.length ≤ k → At S.history k (.served u (.start e) ()) → S.has u n j →
    e.replyKey = Key.deferredReply b.service b.fireAt → Cleared S₀ S n a k

theorem Steady.startsAfter (reach : Reachable net S₀) (later : Later net S₀ S)
    (steady : Steady S₀ S n) (before : a.Before b) (waits : Waits S₀ n a b) :
    StartsAfter S₀ S n a b := by
  induction later with
  | refl =>
    intro k u e j since started
    exact absurd started.lt (Nat.not_lt.mpr since)
  | @tail S S' later step ih =>
    have reached := reach.later later
    have earlier := steady.before reached step
    have ordered := ih earlier
    intro k u e j since started has key
    have old (started : At S.history k (.served u (.start e) ())) : Cleared S₀ S' n a k := by
      obtain ⟨n', j', has'⟩ := reached.founded.task _ _ _ started.mem
      obtain ⟨rfl, rfl⟩ := has.unique (step.has reached.founded has')
      exact (ordered k u e j since started has' key).after reached step
    cases step with
    | pass | again => exact old started
    | begin =>
      rcases At.cons_iff.mp started with ⟨-, heq⟩ | started
      · cases heq
      · exact old started
    | @serve v m j' r next x h q here answers =>
      rcases At.cons_iff.mp started with ⟨rfl, heq⟩ | started
      · cases heq
        obtain ⟨rfl, rfl⟩ := has.unique (Step.has reached.founded (.serve here answers) ⟨_, here⟩)
        rcases earlier.waits_or_cleared reach later before waits with waits | cleared
        · obtain ⟨fires, taken⟩ := reached.claiming_of_start here key
          exact absurd ⟨u, fires, .inr taken⟩ waits.unclaimed
        · exact cleared.after reached (.serve here answers)
      · exact old started

/-- Whatever fails, and whatever is added, merged and scheduled again meanwhile. -/
theorem Reachable.fires_in_order (reach : Reachable net S₀) (later : Later net S₀ S)
    (dispatched : Dispatched S.history) (honoured : Honoured S n) (kept : Unreplaced S₀ S n)
    (before : a.Before b) (listed : a ∈ S₀.pending n) (unclaimed : ¬ Claiming S₀ n b) :
    StartsAfter S₀ S n a b := by
  have steady : Steady S₀ S n :=
    ⟨dispatched, fun f f' ⟨_, _, fires⟩ ⟨_, _, fires'⟩ =>
      (reach.later later).fire_unique honoured fires fires', kept⟩
  exact steady.startsAfter reach later before ⟨.inl listed, unclaimed⟩

section Check

theorem Later.play (S : State) (ms : List Move) : Later net S (S.play net ms) := by
  induction ms generalizing S with
  | nil => exact .refl
  | cons m ms ih =>
    unfold State.play
    cases hm : S.move? net m with
    | none => exact ih S
    | some S' => exact .head (.of_move hm) (ih S')

def setTwice? (S : State) : (newer older : Event) → Bool
  | .served v .claimSpawn true, .served u .claimSpawn true => S.nodeOf? v = S.nodeOf? u
  | _, _ => false

theorem Honoured.of_check (h : S.history.Pairwise fun newer older => setTwice? S newer older = false) :
    Honoured S n := by
  intro i k u v j j' hi hu hk hv hik
  obtain ⟨hi', heq⟩ := List.getElem?_eq_some_iff.mp hi
  obtain ⟨hk', heq'⟩ := List.getElem?_eq_some_iff.mp hk
  have once := List.pairwise_iff_getElem.mp (List.pairwise_reverse.mpr h) i k hi' hk' hik
  rw [heq, heq'] at once
  simp [setTwice?, hu.nodeOf?, hv.nodeOf?] at once

def replaces? (S : State) (n : NodeId) : Event → Bool
  | .served u (.pending (.replace _)) _ => S.nodeOf? u = some n
  | _ => false

theorem Unreplaced.of_check
    (h : (S.history.reverse.drop S₀.history.length).all (fun e => !replaces? S n e) = true) :
    Unreplaced S₀ S n := by
  intro k u j ts count since there has
  have later : Event.served u (.pending (.replace ts)) count ∈
      S.history.reverse.drop S₀.history.length := by
    refine List.mem_of_getElem? (i := k - S₀.history.length) ?_
    rw [List.getElem?_drop, Nat.add_sub_cancel' since]
    exact there
  simpa [replaces?, has.nodeOf?] using List.all_eq_true.mp h _ later

def firing? (S : State) (n : NodeId) : Event → Bool
  | .served u _ _ => match S.tasks u with
    | some ⟨m, .loop (.fire ..), _⟩ => m = n
    | _ => false
  | _ => false

theorem not_claiming_of_check (h : S.history.all (fun e => !firing? S n e) = true) :
    ¬ Claiming S n t := by
  rintro ⟨f, ⟨stop, last, w, here⟩, grasped⟩
  refine grasped.asked (traceOf_eq_nil fun r x hm => ?_)
  simpa [firing?, here] using List.all_eq_true.mp h _ hm

def clears? (S : State) (n : NodeId) (t : DelayedTask) : Event → Bool
  | .served u (.start e) _ =>
    S.nodeOf? u = some n && e.replyKey = Key.deferredReply t.service t.fireAt
  | .served u (.broker _ (.hashTake key field)) (.ok none) =>
    S.nodeOf? u = some n && key = Key.delay t.service && field = Decimal.ofInt64 t.fireAt
  | .served u (.pending (.erase t')) true => S.nodeOf? u = some n && t' = t
  | _ => false

theorem Clears.check {e : Event} (clears : Clears S n t e) : clears? S n t e = true := by
  cases clears with
  | started f e fires _ key =>
    obtain ⟨stop, last, has⟩ := fires
    simp [clears?, has.nodeOf?, key]
  | gone f b fires =>
    obtain ⟨stop, last, has⟩ := fires
    simp [clears?, has.nodeOf?]
  | cancelled u b consumer services stop d has => simp [clears?, has.nodeOf?]

end Check

def queued : State :=
  (State.start ⟨⟨0⟩, 0⟩).play (fun _ => .echo "rpc") <|
    .begin 0 .spawn :: turns 0 0 12 ++ .begin 0 (.scheduleAt "s" ⟨5⟩ [1]) :: turns 13 0 2 ++
      .begin 0 (.scheduleAt "s" ⟨6⟩ [2]) :: turns 16 0 2 ++ turns 12 1 8

/-- The claim of the first fails once, then both are started. -/
def retried : State :=
  queued.play (fun _ => .echo "rpc") <|
    .pass ⟨⟨10⟩, 0⟩ :: turns 12 0 6 ++ .fail ⟨12, 0⟩ :: turns 12 0 18

theorem fires_in_order_retried :
    Reachable (fun _ => .echo "rpc") queued ∧ Later (fun _ => .echo "rpc") queued retried ∧
      Dispatched retried.history ∧ Honoured retried 0 ∧ Unreplaced queued retried 0 ∧
      (⟨5, "s"⟩ : DelayedTask).Before ⟨6, "s"⟩ ∧ (⟨5, "s"⟩ : DelayedTask) ∈ queued.pending 0 ∧
      ¬ Claiming queued 0 ⟨6, "s"⟩ ∧ StartsAfter queued retried 0 ⟨5, "s"⟩ ⟨6, "s"⟩ ∧
      retried.has ⟨47, 0⟩ 0
        (.execution ⟨0, "s", [2], Key.deferredReply "s" 6, Config.default.replyTtl⟩) := by
  have reach : Reachable (fun _ => .echo "rpc") queued := (Reachable.start _).play _
  have later : Later (fun _ => .echo "rpc") queued retried := .play queued _
  have dispatched : Dispatched retried.history := .of_check (by decide +kernel)
  have honoured : Honoured retried 0 := .of_check (by decide +kernel)
  have kept : Unreplaced queued retried 0 := .of_check (by decide +kernel)
  have before : (⟨5, "s"⟩ : DelayedTask).Before ⟨6, "s"⟩ := by decide +kernel
  have listed : (⟨5, "s"⟩ : DelayedTask) ∈ queued.pending 0 := by decide +kernel
  have unclaimed : ¬ Claiming queued 0 ⟨6, "s"⟩ := not_claiming_of_check (by decide +kernel)
  exact ⟨reach, later, dispatched, honoured, kept, before, listed, unclaimed,
    reach.fires_in_order later dispatched honoured kept before listed unclaimed, by decide +kernel⟩

def Setup.twofold : Setup where
  shared := ⟨[⟨"main", 0, "consumer"⟩, ⟨"side", 0, "consumer"⟩], .default⟩
  registry := (Registry.empty.register "main" "s" (.raw (fun _ => .null) .ok)).register "side" "t"
    (.raw (fun _ => .null) .ok)

/-- A node that does not run yet reads the two deferred calls of another one. -/
def listed : State :=
  (State.start ⟨⟨0⟩, 0⟩).play (fun _ => .twofold) <|
    .begin 1 .spawn :: turns 0 0 20 ++ .begin 1 (.scheduleAt "s" ⟨5⟩ [1]) :: turns 20 0 2 ++
      .begin 1 (.scheduleAt "t" ⟨6⟩ [2]) :: turns 23 0 2 ++ turns 19 1 6 ++ turns 19 2 6 ++
      .begin 0 .reload :: turns 36 0 5

/-- The other node claims the first, then the node is spawned: its list is made anew without it. -/
def relisted : State :=
  listed.play (fun _ => .twofold) <|
    .pass ⟨⟨10⟩, 0⟩ :: turns 19 0 7 ++ .begin 0 .spawn :: turns 48 0 15 ++ turns 63 0 8

theorem not_in_order_when_replaced :
    ¬ ∀ (net : NodeId → Setup) (S₀ S : State) (n : NodeId) (a b : DelayedTask),
      Reachable net S₀ → Later net S₀ S → Running S → Honoured S n → a.Before b →
        a ∈ S₀.pending n → b ∈ S₀.pending n → (∀ t, ¬ Claiming S₀ n t) → StartsAfter S₀ S n a b := by
  intro hall
  have reach : Reachable (fun _ => .twofold) relisted := ((Reachable.start _).play _).play _
  have running : Running relisted :=
    .of_check (by decide +kernel) (by decide +kernel) (by decide +kernel)
  have ordered := hall (fun _ => .twofold) listed relisted 0 ⟨5, "s"⟩ ⟨6, "t"⟩
    ((Reachable.start _).play _) (.play listed _) running (.of_check (by decide +kernel))
    (by decide +kernel) (by decide +kernel) (by decide +kernel)
    fun t => not_claiming_of_check (by decide +kernel)
  have uncleared : relisted.history.all (fun e => !clears? relisted 0 ⟨5, "s"⟩ e) = true := by
    decide +kernel
  have executed : relisted.has ⟨70, 0⟩ 0
      (.execution ⟨0, "t", [2], Key.deferredReply "t" 6, Config.default.replyTtl⟩) := by
    decide +kernel
  cases reach.founded.origin _ _ _ executed with
  | child u j r x parent started job =>
    obtain ⟨rfl, -⟩ := execution_of_jobsOf job
    obtain ⟨i, e, -, -, there, clears⟩ := ordered 70 u _ j (by decide +kernel) started parent rfl
    have stays := List.all_eq_true.mp uncleared e there.mem
    rw [clears.check] at stays
    cases stays

end BrokeredCalls.Network
