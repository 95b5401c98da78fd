import BrokeredCalls.Proofs.Network.Operations
import BrokeredCalls.Proofs.Pending

/-!
The programs of executions and loops keep to their rules. What carries a round of the dispatch loop
is that its duties are what it has routed and what is left of the batch.
-/

namespace BrokeredCalls.Network

open Node (Effect Execution Shared Routine Attempt)
open Program (Asks Obeys)

variable {s : Shared}

theorem executing_routine (e : Execution) :
    Obeys ⟨Credible, Executing e⟩ (fun _ _ => True) [] e.routine := by
  have pushed {tr : Trail} {reply : Reply} (outcome : Outcome e tr reply)
      (first : ∀ x ∈ tr, ∀ b key value ttl, x.1 ≠ .broker b (.pushReply key value ttl)) :
      Obeys ⟨Credible, Executing e⟩ (fun _ _ => True) tr
        (Node.onBroker e.broker (Broker.deliver e.replyKey reply e.replyTtl)) :=
    .ask (Executing.push reply outcome first) fun _ _ => trivial
  refine .bind (.bind (.request (Executing.resolve rfl) fun found _ => ?_))
  cases hh : found.bind (·.handler) with
  | none =>
    refine .done (pushed (.missing found (by simp) hh) fun x hx => ?_)
    rw [List.mem_singleton.mp hx]
    simp
  | some h =>
    obtain ⟨route, rfl, hroute⟩ := Option.bind_eq_some_iff.mp hh
    refine .bind (.request (Executing.invoke h route rfl hroute) fun result _ => ?_)
    refine .done (pushed (.ran h result (by simp)) fun x hx => ?_)
    rcases List.mem_cons.mp hx with rfl | hx
    · simp
    · rw [List.mem_singleton.mp hx]
      simp

section Fire

theorem Due.suffix {tr tr' : Trail} {t : DelayedTask} (h : Due tr t) (hs : tr <:+ tr') :
    Due tr' t := by
  obtain ⟨now, hread, hnext⟩ := h
  exact ⟨now, hs.subset hread, hs.subset hnext⟩

theorem firing_fire {tr : Trail} {t : DelayedTask} (due : Due tr t) :
    Obeys ⟨Credible, Firing s⟩ (fun _ _ => True) tr (Node.Deferred.fire s t).run := by
  refine .bindExcept (.lift (.bind (.request (Firing.harmless rfl) fun found _ => ?_)))
  have due₁ := due.suffix (List.suffix_cons (⟨.resolve t.service, found⟩ : Exchange Node.interface) tr)
  refine .done ?_
  cases found.bind fun route => s.brokerOf route.source with
  | none => exact trivial
  | some b =>
    refine .bindExcept (.lift (.request (Firing.claim b t due₁) fun taken _ => ?_))
    cases taken with
    | error e =>
      refine .bindExcept (.lift (.request (Firing.again t (due₁.suffix (List.suffix_cons _ _)))
        fun _ _ => trivial))
    | ok field =>
      cases field with
      | none => exact trivial
      | some payload =>
        cases payload with
        | nil => exact trivial
        | cons byte bytes =>
          exact .lift (.request (Firing.start b t (byte :: bytes) _ rfl) fun _ _ => trivial)

theorem firing_resync {tr : Trail} :
    Obeys ⟨Credible, Firing s⟩ (fun _ _ => True) tr (Node.Deferred.resync s).run := by
  refine .bindExcept ((found_scan (fun tr r => Firing.harmless) s.sources).mono fun tr r hr => ?_)
  cases r with
  | error e => trivial
  | ok ts => exact .lift (.request (Firing.merge ts (hr.2 ts rfl)) fun _ _ => trivial)

theorem firing_nextStep {tr : Trail} :
    Obeys ⟨Credible, Firing s⟩ (fun tr step => ∀ t, step = .fire t → Due tr t) tr
      (Node.Deferred.nextStep s) := by
  refine .bind (.request (Firing.harmless rfl) fun now _ => ?_)
  refine .bind (.request (Firing.look now List.mem_cons_self) fun next _ => ?_)
  refine .done fun t ht => ⟨now, by simp, ?_⟩
  cases next with
  | due u =>
    cases ht
    exact List.mem_cons_self
  | later u => cases ht
  | nothing => cases ht

theorem firing_pauseAfter {tr : Trail} {step : Node.Deferred.Step}
    (due : ∀ t, step = .fire t → Due tr t) :
    Obeys ⟨Credible, Firing s⟩ (fun _ _ => True) tr (Node.Deferred.pauseAfter s step) := by
  cases step with
  | sleep d => exact trivial
  | fire t =>
    refine .bind ((firing_fire (due t rfl)).mono fun tr r _ => ?_)
    cases r <;> exact trivial

def GoesOnFiring (r : Option Node.Loop) : Prop :=
  ∀ l, r = some l → ∃ stop last, l = Node.Loop.fire stop last

theorem firing_rest (stop : SignalId) (last : Nat) {tr : Trail} :
    Obeys ⟨Credible, Firing s⟩ (fun _ r => GoesOnFiring r) tr
      (Node.Deferred.rest s stop (.fire stop last)) := by
  have again : GoesOnFiring (some (Node.Loop.fire stop last)) := fun l h =>
    ⟨stop, last, (Option.some.inj h).symm⟩
  refine .bind (firing_nextStep.mono fun tr step due => ?_)
  refine .bind ((firing_pauseAfter due).mono fun tr pause _ => ?_)
  cases pause with
  | none => exact .done again
  | some d =>
    refine .bind (.request (Firing.harmless rfl) fun ended _ => ?_)
    cases ended with
    | abandoned => exact .done fun l h => by cases h
    | value _ => exact .done again
    | raised => exact .done again

theorem firing_round (stop : SignalId) (last : Nat) {tr : Trail} :
    Obeys ⟨Credible, Firing s⟩ (fun _ r => GoesOnFiring r) tr
      (Node.Deferred.round s stop last) := by
  refine .bind (.request (Firing.harmless rfl) fun raised _ => ?_)
  cases raised with
  | true => exact .done fun l h => by cases h
  | false =>
    refine .bind (.request (Firing.harmless rfl) fun now _ => ?_)
    cases Node.Deferred.resyncDue s last now with
    | true =>
      simp only [if_true]
      exact .bind (firing_resync.mono fun tr r _ => firing_rest stop now)
    | false => exact firing_rest stop last

end Fire

section Dispatch

variable {b : BrokerId} {tr : Trail}

def Owes (s : Shared) (b : BrokerId) (tr : Trail) (rest : List Effect) : Prop :=
  duties s b tr = routed tr ++ rest

theorem Owes.harmless {rest : List Effect} (o : Owes s b tr rest) {r : Effect} (a : r.Answer)
    (h : harmless r = true) : Owes s b (⟨r, a⟩ :: tr) rest := by
  cases r with
  | broker b' c => cases c <;> first | exact o | cases h
  | readUnlessStopped | invoke | start => cases h
  | _ => exact o

theorem Owes.routed {rest : List Effect} {r : Effect} (o : Owes s b tr (r :: rest)) (a : r.Answer)
    (h : isDuty r = true) : Owes s b (⟨r, a⟩ :: tr) rest := by
  have hrouted : Network.routed (⟨r, a⟩ :: tr) = Network.routed tr ++ [r] := if_pos h
  have hgiven : given (⟨r, a⟩ :: tr) = given tr := by
    cases r with
    | readUnlessStopped => cases h
    | _ => rfl
  unfold Owes duties at *
  rw [hrouted, hgiven, o]
  simp

theorem Owes.read {b' : BrokerId} {g consumer : String} {services : List String} {count : Nat}
    {block : Duration} {stop : SignalId} (o : Owes s b tr []) (ds : List Delivery) :
    Owes s b (⟨.readUnlessStopped b' g consumer services count block stop, .value (.ok ds)⟩ :: tr)
      (ds.filterMap (duty s b)) := by
  unfold Owes duties at *
  rw [given, List.filterMap_append, o, List.append_nil]
  rfl

theorem dispatching_quiet {α : Type} {p : Routine α} {rest : List Effect} (h : Quiet p)
    (o : Owes s b tr rest) :
    Obeys ⟨Credible, Dispatching s b⟩ (fun tr _ => Owes s b tr rest) tr p :=
  h.obeys (fun _ _ _ hr => Dispatching.harmless (harmless_of_quiet hr))
    (fun _ _ a ho hr => ho.harmless a (harmless_of_quiet hr)) o

theorem dispatching_add {service : String} {t : FireTime} {payload : Bytes} {rest : List Effect}
    (o : Owes s b tr (.broker b (.hashSet (Key.delay service) (Decimal.ofInt64 t) payload) :: rest)) :
    Obeys ⟨Credible, Dispatching s b⟩ (fun tr _ => Owes s b tr rest) tr
      (Node.Deferred.add b service t payload).run := by
  refine .bindExcept (.request (Dispatching.route rest rfl o) fun written _ => ?_)
  have o₁ := o.routed written rfl
  cases written with
  | error e => exact o₁
  | ok _ =>
    refine .bindExcept (.lift (.request
      (Dispatching.track ⟨t, service⟩ payload List.mem_cons_self) fun _ _ => ?_))
    exact o₁

theorem dispatching_remove {service : String} {t : FireTime} {rest : List Effect}
    (o : Owes s b tr (.broker b (.hashDelete (Key.delay service) (Decimal.ofInt64 t)) :: rest)) :
    Obeys ⟨Credible, Dispatching s b⟩ (fun tr _ => Owes s b tr rest) tr
      (Node.Deferred.remove b service t).run := by
  refine .bindExcept (.lift (.request (Dispatching.harmless rfl) fun known _ => ?_))
  have o₁ := o.harmless (r := .pending (.erase ⟨t, service⟩)) known rfl
  exact .request (Dispatching.route rest rfl o₁) fun deleted _ => o₁.routed deleted rfl

theorem dispatching_route {d : Delivery} {rest : List Effect}
    (o : Owes s b tr ((duty s b d).toList ++ rest)) :
    Obeys ⟨Credible, Dispatching s b⟩ (fun tr _ => Owes s b tr rest) tr
      (Node.Dispatch.route s b d) := by
  unfold Node.Dispatch.route
  unfold duty at o
  cases hp : d.envelope.isPlaceholder with
  | true =>
    simp only [hp, if_true] at o ⊢
    exact .done o
  | false =>
    simp only [hp] at o ⊢
    cases ht : d.envelope.fireAt with
    | none =>
      simp only [ht] at o ⊢
      exact .request (Dispatching.route rest rfl o) fun _ _ => o.routed () rfl
    | some t =>
      simp only [ht] at o ⊢
      refine .bind ?_
      cases hd : d.envelope.isTombstone with
      | true =>
        simp only [hd, if_true] at o ⊢
        exact (dispatching_remove o).mono fun _ _ o => o
      | false =>
        simp only [hd] at o ⊢
        exact (dispatching_add o).mono fun _ _ o => o

theorem dispatching_routeAll {ds : List Delivery} (o : Owes s b tr (ds.filterMap (duty s b))) :
    Obeys ⟨Credible, Dispatching s b⟩ (fun tr _ => Owes s b tr []) tr
      (Node.Dispatch.routeAll s b ds) := by
  induction ds generalizing tr with
  | nil => exact o
  | cons d ds ih =>
    have o₁ : Owes s b tr ((duty s b d).toList ++ ds.filterMap (duty s b)) := by
      rw [List.filterMap_cons] at o
      cases hd : duty s b d with
      | none => simpa [hd] using o
      | some r => simpa [hd] using o
    exact .bind ((dispatching_route o₁).mono fun tr _ o => ih o)

theorem quiet_acknowledgeAll (group : String) (batches : List (String × List String)) :
    Quiet (Node.Dispatch.acknowledgeAll b group batches) :=
  Node.asks_acknowledgeAll batches fun _ _ => rfl

theorem quiet_pause (stop : SignalId) : Quiet (Node.Dispatch.pause s stop) :=
  Node.asks_pause fun _ => rfl

theorem dispatching_handle {b' : BrokerId} {g consumer : String} {services : List String}
    {count : Nat} {block : Duration} {stop stop' : SignalId} (o : Owes s b tr [])
    (result : Except Error (List Delivery)) :
    Obeys ⟨Credible, Dispatching s b⟩ (fun tr _ => Owes s b tr [])
      (⟨.readUnlessStopped b' g consumer services count block stop, .value result⟩ :: tr)
      (Node.Dispatch.handle s b stop' result) := by
  cases result with
  | ok batch =>
    refine .bind ((dispatching_quiet (quiet_acknowledgeAll _ _) (o.read batch)).mono
      fun tr _ o => ?_)
    exact .bind ((dispatching_routeAll o).mono fun tr _ o => .done o)
  | error e =>
    have o₁ : Owes s b (⟨.readUnlessStopped b' g consumer services count block stop,
        .value (.error e)⟩ :: tr) [] := o
    cases e with
    | missingQueue queue =>
      refine .bind ((dispatching_quiet (quiet_ensureGroup b queue _) o₁).mono fun tr r o => ?_)
      cases r with
      | ok _ => exact .done o
      | error e => exact dispatching_quiet (quiet_pause stop') o
    | _ => exact dispatching_quiet (quiet_pause stop') o₁

theorem dispatching_round (consumer : String) (services : List String) (stop : SignalId)
    (o : Owes s b tr []) :
    Obeys ⟨Credible, Dispatching s b⟩
      (fun tr r => r = none ∨ r = some (.dispatch b consumer services stop) ∧ Owes s b tr []) tr
      (Node.Dispatch.round s b consumer services stop) := by
  refine .bind (.request (Dispatching.harmless rfl) fun raised _ => ?_)
  have o₁ : Owes s b (⟨.isRaised stop, raised⟩ :: tr) [] := o
  cases raised with
  | true => exact .done (.inl rfl)
  | false =>
    have idle : duties s b (⟨.isRaised stop, false⟩ :: tr) = routed (⟨.isRaised stop, false⟩ :: tr) :=
      o₁.trans (List.append_nil _)
    refine .bind (.request (Dispatching.read consumer services _ _ stop idle) fun ended _ => ?_)
    cases ended with
    | abandoned => exact .done (.inl rfl)
    | raised => exact .done (.inr ⟨rfl, o₁⟩)
    | value result =>
      refine .bind ((dispatching_handle o₁ result).mono fun tr goesOn o => ?_)
      cases goesOn with
      | true => exact .done (.inr ⟨rfl, o⟩)
      | false => exact .done (.inl rfl)

end Dispatch

theorem loop_obeys (l : Node.Loop) {l' : Node.Loop} {tr : Trail}
    (again : ending s (.loop l) tr (.again l')) :
    Obeys ⟨Credible, rule s (.loop l)⟩ (ending s (.loop l)) tr (round s l') := by
  cases l with
  | dispatch b consumer services stop =>
    cases l' with
    | fire stop' last' => cases again
    | dispatch b' consumer' services' stop' =>
      obtain ⟨rfl, rfl, idle⟩ := again
      have owes : Owes s b' tr [] := idle.trans (List.append_nil _).symm
      refine .bind ((dispatching_round consumer' services' stop' owes).mono fun tr r hr => ?_)
      rcases hr with rfl | ⟨rfl, o⟩
      · exact .done trivial
      · exact .done ⟨rfl, rfl, o.trans (List.append_nil _)⟩
  | fire stop last =>
    cases l' with
    | dispatch b' consumer' services' stop' => cases again
    | fire stop' last' =>
      refine .bind ((firing_round stop' last').mono fun tr r hr => ?_)
      cases r with
      | none => exact .done trivial
      | some l =>
        obtain ⟨_, _, rfl⟩ := hr l rfl
        exact .done trivial

theorem job_obeys (j : Job) :
    Obeys ⟨Credible, rule s j⟩ (ending s j) [] (j.work s) := by
  cases j with
  | operation o => exact .bind ((operation_obeys o).mono fun tr v h => .done h)
  | execution e => exact .bind ((executing_routine e).mono fun tr _ _ => .done trivial)
  | loop l =>
    cases l with
    | dispatch b consumer services stop => exact .done ⟨rfl, rfl, rfl⟩
    | fire stop last => exact .done trivial

def discipline (net : NodeId → Setup) : Discipline net where
  rule n j := rule (net n).shared j
  ending n j := ending (net n).shared j
  works _ j := job_obeys j
  again n j tr l h := by
    cases j with
    | loop l => exact loop_obeys l h
    | operation o => cases h
    | execution e => cases h

end BrokeredCalls.Network
