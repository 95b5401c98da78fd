import BrokeredCalls.Proofs.Network.Holding

/-!
What becomes of what a loop takes while its broker serves it. A batch is acknowledged and routed before
the loop does anything else, and a due task is claimed; a round that has begun with either comes to its
end, so the stop signal cuts nothing in two.
-/

namespace BrokeredCalls.Shutdown

open Network (Ending Setup Trail round)
open Node (Effect Loop Routine Shared)
open Node.Dispatch (acknowledgeAll handle idsByQueue routeAll)
open Program (Asks Obeys)

inductive Route (s : Shared) (b : BrokerId) (d : Delivery) : Trail → Prop
  | placeholder (empty : d.envelope.isPlaceholder = true) : Route s b d []
  | deferred (t : FireTime) (new : Bool) (due : d.envelope.fireAt = some t)
    (call : d.envelope.payload ≠ []) :
    Route s b d
      [⟨.pending (.insert ⟨t, d.envelope.service⟩), new⟩,
        ⟨.broker b (.hashSet (Key.delay d.envelope.service) (Decimal.ofInt64 t) d.envelope.payload),
          .ok ()⟩]
  | tombstone (t : FireTime) (known : Bool) (due : d.envelope.fireAt = some t)
    (empty : d.envelope.payload = []) :
    Route s b d
      [⟨.broker b (.hashDelete (Key.delay d.envelope.service) (Decimal.ofInt64 t)), .ok ()⟩,
        ⟨.pending (.erase ⟨t, d.envelope.service⟩), known⟩]
  | immediate (now : d.envelope.fireAt = none) (call : d.envelope.payload ≠ []) :
    Route s b d
      [⟨.start
        { broker := b
          service := d.envelope.service
          payload := d.envelope.payload
          replyKey := Key.reply d.envelope.service d.id
          replyTtl := s.config.replyTtl }, ()⟩]

inductive Routes (s : Shared) (b : BrokerId) : List Delivery → Trail → Prop
  | nil : Routes s b [] []
  | cons {d : Delivery} {ds : List Delivery} {first rest : Trail} (route : Route s b d first)
    (routes : Routes s b ds rest) : Routes s b (d :: ds) (rest ++ first)

def acknowledgements (b : BrokerId) (g : String) (batches : List (String × List String)) : Trail :=
  (batches.map fun (queue, ids) => ⟨.broker b (.acknowledge queue g ids), .ok ()⟩).reverse

structure Handled (s : Shared) (b : BrokerId) (ds : List Delivery) (newer : Trail) : Prop where
  acknowledged : ∀ d ∈ ds, ∃ ids, d.id ∈ ids ∧
    (⟨.broker b (.acknowledge d.queue s.config.group ids), .ok ()⟩ : Exchange Node.interface) ∈ newer
  routed : ∃ later routes, Routes s b ds routes ∧
    newer = later ++ (routes ++ acknowledgements b s.config.group (idsByQueue ds))

/-- What a loop did to claim a task: it was gone, or its execution was started. An empty payload is no
call, and no node stores one. -/
inductive Claim (node : Setup) (t : DelayedTask) : Trail → Prop
  | gone (b : BrokerId) (found : Option Bytes) (here : (node.registry.resolve t.service).bind
      (fun route => node.shared.brokerOf route.source) = some b) (nothing : found.getD [] = []) :
    Claim node t
      [⟨.broker b (.hashTake (Key.delay t.service) (Decimal.ofInt64 t.fireAt)), .ok found⟩,
        ⟨.resolve t.service, node.registry.resolve t.service⟩]
  | started (b : BrokerId) (payload : Bytes) (here : (node.registry.resolve t.service).bind
      (fun route => node.shared.brokerOf route.source) = some b) (call : payload ≠ []) :
    Claim node t
      [⟨.start
        { broker := b
          service := t.service
          payload := payload
          replyKey := Key.deferredReply t.service t.fireAt
          replyTtl := node.shared.config.replyTtl }, ()⟩,
        ⟨.broker b (.hashTake (Key.delay t.service) (Decimal.ofInt64 t.fireAt)), .ok (some payload)⟩,
        ⟨.resolve t.service, node.registry.resolve t.service⟩]

def Claimed (node : Setup) (t : DelayedTask) (newer : Trail) : Prop :=
  ∃ later claim, Claim node t claim ∧ newer = later ++ claim

def Followed (node : Setup) : Exchange Node.interface → Trail → Prop
  | ⟨.readUnlessStopped b .., .value (.ok ds)⟩, newer => Handled node.shared b ds newer
  | ⟨.pending (.next _), .due t⟩, newer => Claimed node t newer
  | _, _ => True

def Settled (node : Setup) (tr : Trail) : Prop :=
  ∀ newer x older, tr = newer ++ x :: older → Followed node x newer

variable {node : Setup} {tr : Trail}

theorem Handled.after {s : Shared} {b : BrokerId} {ds : List Delivery} {newer : Trail}
    (handled : Handled s b ds newer) (later : Trail) : Handled s b ds (later ++ newer) where
  acknowledged d hd := by
    obtain ⟨ids, mem, there⟩ := handled.acknowledged d hd
    exact ⟨ids, mem, List.mem_append_right later there⟩
  routed := by
    obtain ⟨rest, routes, routed, rfl⟩ := handled.routed
    exact ⟨later ++ rest, routes, routed, (List.append_assoc _ _ _).symm⟩

theorem Followed.after {x : Exchange Node.interface} {newer : Trail} (followed : Followed node x newer)
    (later : Trail) : Followed node x (later ++ newer) := by
  unfold Followed at *
  split at followed
  · exact followed.after later
  · obtain ⟨rest, claim, claims, rfl⟩ := followed
    exact ⟨later ++ rest, claim, claims, (List.append_assoc _ _ _).symm⟩
  · exact trivial

def takes : Effect → Bool
  | .readUnlessStopped .. | .pending (.next _) => true
  | _ => false

theorem followed_of_takes {x : Exchange Node.interface} (h : takes x.1 = false) (newer : Trail) :
    Followed node x newer := by
  obtain ⟨r, a⟩ := x
  cases r with
  | readUnlessStopped => cases h
  | pending access =>
    cases access with
    | next => cases h
    | _ => exact trivial
  | _ => exact trivial

namespace Settled

theorem nil : Settled node [] := by
  intro newer x older split
  cases newer <;> cases split

theorem cons {x : Exchange Node.interface} (settled : Settled node tr) (nothing : Followed node x []) :
    Settled node (x :: tr) := by
  intro newer y older split
  cases newer with
  | nil =>
    cases split
    exact nothing
  | cons z newer =>
    obtain ⟨rfl, rfl⟩ := List.cons.inj split
    exact (settled newer y older rfl).after [x]

theorem taken {x : Exchange Node.interface} {newer : Trail} (settled : Settled node tr)
    (followed : Followed node x newer) (others : ∀ y ∈ newer, takes y.1 = false) :
    Settled node (newer ++ x :: tr) := by
  intro before y after split
  rcases List.append_eq_append_iff.mp split with ⟨rest, rfl, hrest⟩ | ⟨rest, rfl, hrest⟩
  · cases rest with
    | nil =>
      cases hrest
      rwa [List.append_nil]
    | cons z rest =>
      obtain ⟨rfl, rfl⟩ := List.cons.inj hrest
      have := (settled rest y after rfl).after (newer ++ [x])
      rwa [List.append_assoc] at this
  · cases rest with
    | nil =>
      cases hrest
      rwa [List.append_nil] at followed
    | cons z rest =>
      obtain ⟨rfl, -⟩ := List.cons.inj hrest
      exact followed_of_takes (others y (by simp)) before

end Settled

/-- Answers of a broker that serves, to a node that knows its services. -/
def Sound (node : Setup) : (r : Effect) → r.Answer → Prop
  | .broker _ (.acknowledge ..), a => a = .ok ()
  | .broker _ (.hashSet ..), a => a = .ok ()
  | .broker _ (.hashDelete ..), a => a = .ok ()
  | .broker _ (.hashTake ..), a => ∃ found, a = .ok found
  | .resolve service, found => found = node.registry.resolve service
  | .pending (.next _), .due t => node.Attends t.service
  | _, _ => True

abbrev sound (node : Setup) : Conduct Node.interface := ⟨Sound node, fun _ _ => True⟩

theorem settled_asks {α : Type} {p : Routine α} (h : Asks (fun r => takes r = false) p)
    (settled : Settled node tr) : Obeys (sound node) (fun tr _ => Settled node tr) tr p :=
  h.obeys (fun _ _ _ _ => trivial) (fun _ _ _ settled h => settled.cons (followed_of_takes h [])) settled

section Dispatch

variable {b : BrokerId} {g : String}

theorem acknowledgements_cons (queue : String) (ids : List String)
    (rest : List (String × List String)) :
    acknowledgements b g ((queue, ids) :: rest) =
      acknowledgements b g rest ++ [⟨.broker b (.acknowledge queue g ids), .ok ()⟩] := by
  simp [acknowledgements]

theorem find?_idsByQueue {ds : List Delivery} {d : Delivery} (h : d ∈ ds) :
    ∃ ids, (idsByQueue ds).find? (fun e => e.1 = d.queue) = some (d.queue, ids) ∧ d.id ∈ ids := by
  induction ds with
  | nil => cases h
  | cons e ds ih =>
    unfold idsByQueue
    dsimp only
    by_cases same : e.queue = d.queue
    · cases hf : (idsByQueue ds).find? (fun x => x.1 = e.queue) with
      | none =>
        rcases List.mem_cons.mp h with rfl | h
        · exact ⟨[d.id], by simp, List.mem_cons_self⟩
        · obtain ⟨ids, found, -⟩ := ih h
          rw [same, found] at hf
          cases hf
      | some x =>
        obtain ⟨queue, older⟩ := x
        refine ⟨e.id :: older, by simp [same], ?_⟩
        rcases List.mem_cons.mp h with rfl | h
        · exact List.mem_cons_self
        · obtain ⟨ids, found, there⟩ := ih h
          rw [same, found] at hf
          cases hf
          exact List.mem_cons_of_mem _ there
    · have hd : d ∈ ds := (List.mem_cons.mp h).resolve_left fun heq => same (heq ▸ rfl)
      obtain ⟨ids, found, there⟩ := ih hd
      refine ⟨ids, ?_, there⟩
      cases hf : (idsByQueue ds).find? (fun x => x.1 = e.queue) with
      | none => simpa [same] using found
      | some x =>
        simp only [List.find?_cons, same, decide_false, List.find?_filter]
        rw [← found]
        congr 1
        funext x
        by_cases hx : x.1 = d.queue
        · simp [hx, Ne.symm same]
        · simp [hx]

theorem acknowledged_of_mem {ds : List Delivery} {d : Delivery} (h : d ∈ ds) :
    ∃ ids, d.id ∈ ids ∧
      (⟨.broker b (.acknowledge d.queue g ids), .ok ()⟩ : Exchange Node.interface) ∈
        acknowledgements b g (idsByQueue ds) := by
  obtain ⟨ids, found, there⟩ := find?_idsByQueue h
  refine ⟨ids, there, List.mem_reverse.mpr (List.mem_map.mpr ?_)⟩
  exact ⟨(d.queue, ids), List.mem_of_find?_eq_some found, rfl⟩

theorem obeys_acknowledgeAll (batches : List (String × List String)) :
    Obeys (sound node) (fun tr' _ => tr' = acknowledgements b g batches ++ tr) tr
      (acknowledgeAll b g batches) := by
  induction batches generalizing tr with
  | nil => exact .done rfl
  | cons batch rest ih =>
    obtain ⟨queue, ids⟩ := batch
    refine .bind (.request trivial fun a ha => ?_)
    obtain rfl : a = .ok () := ha
    refine ih.mono fun tr' _ grown => ?_
    rw [grown, acknowledgements_cons, List.append_assoc]
    rfl

theorem obeys_route (d : Delivery) :
    Obeys (sound node) (fun tr' _ => ∃ xs, Route node.shared b d xs ∧ tr' = xs ++ tr) tr
      (Node.Dispatch.route node.shared b d) := by
  unfold Node.Dispatch.route
  dsimp only
  cases hp : d.envelope.isPlaceholder with
  | true =>
    simp only [if_true]
    exact .done ⟨[], .placeholder hp, rfl⟩
  | false =>
    simp only [Bool.false_eq_true, if_false]
    cases ht : d.envelope.fireAt with
    | none =>
      have call : d.envelope.payload ≠ [] := by
        simpa [Envelope.isPlaceholder, ht] using hp
      exact .request trivial fun _ _ => ⟨_, .immediate ht call, rfl⟩
    | some t =>
      refine .bind ?_
      cases hd : d.envelope.isTombstone with
      | true =>
        have empty : d.envelope.payload = [] := by
          simpa [Envelope.isTombstone, ht] using hd
        simp only [if_true]
        refine .bindExcept (.lift (.request trivial fun known _ => ?_))
        refine .request trivial fun a ha => ?_
        obtain rfl : a = .ok () := ha
        exact .done ⟨_, .tombstone t known ht empty, rfl⟩
      | false =>
        have call : d.envelope.payload ≠ [] := by
          simpa [Envelope.isTombstone, ht] using hd
        simp only [Bool.false_eq_true, if_false]
        refine .bindExcept (.request trivial fun a ha => ?_)
        obtain rfl : a = .ok () := ha
        refine .bindExcept (.lift (.request trivial fun new _ => ?_))
        exact .done (.done ⟨_, .deferred t new ht call, rfl⟩)

theorem obeys_routeAll (ds : List Delivery) :
    Obeys (sound node) (fun tr' _ => ∃ xs, Routes node.shared b ds xs ∧ tr' = xs ++ tr) tr
      (routeAll node.shared b ds) := by
  induction ds generalizing tr with
  | nil => exact .done ⟨[], .nil, rfl⟩
  | cons d ds ih =>
    refine .bind ((obeys_route d).mono fun tr₁ _ first => ?_)
    obtain ⟨xs, route, rfl⟩ := first
    refine ih.mono fun tr₂ _ rest => ?_
    obtain ⟨ys, routes, rfl⟩ := rest
    exact ⟨ys ++ xs, .cons route routes, (List.append_assoc _ _ _).symm⟩

theorem Route.takes_nothing {s : Shared} {d : Delivery} {xs : Trail} (route : Route s b d xs) :
    ∀ x ∈ xs, takes x.1 = false := by
  cases route <;> simp [takes]

theorem Routes.takes_nothing {s : Shared} {ds : List Delivery} {xs : Trail}
    (routes : Routes s b ds xs) : ∀ x ∈ xs, takes x.1 = false := by
  induction routes with
  | nil => exact List.forall_mem_nil _
  | cons route _ ih => exact List.forall_mem_append.mpr ⟨ih, route.takes_nothing⟩

theorem Routes.exists_route {s : Shared} {ds : List Delivery} {xs : Trail} (routes : Routes s b ds xs)
    {d : Delivery} (mem : d ∈ ds) : ∃ ys, Route s b d ys ∧ ys ⊆ xs := by
  induction routes with
  | nil => cases mem
  | cons route _ ih =>
    rcases List.mem_cons.mp mem with rfl | mem
    · exact ⟨_, route, List.subset_append_right _ _⟩
    · obtain ⟨ys, route, sub⟩ := ih mem
      exact ⟨ys, route, List.Subset.trans sub (List.subset_append_left _ _)⟩

theorem acknowledgements_take_nothing (batches : List (String × List String)) :
    ∀ x ∈ acknowledgements b g batches, takes x.1 = false := by
  intro x hx
  obtain ⟨batch, -, rfl⟩ := List.mem_map.mp (List.mem_reverse.mp hx)
  rfl

variable {stop : SignalId}

theorem asks_pause : Asks (fun r => takes r = false) (Node.Dispatch.pause node.shared stop) :=
  Node.asks_pause fun _ => rfl

theorem asks_ensureGroup (queue : String) : Asks (fun r => takes r = false)
    (Node.onBrokerAttempt b (Broker.ensureGroup queue g)).run :=
  .expand (Provisioning.asks_ensureGroup.mono fun _ _ => .request rfl)

theorem settled_handle {consumer : String} {services : List String} {count : Nat} {block : Duration}
    (result : Except Error (List Delivery)) (settled : Settled node tr) :
    Obeys (sound node) (fun tr _ => Settled node tr)
      (⟨.readUnlessStopped b g consumer services count block stop, .value result⟩ :: tr)
      (handle node.shared b stop result) := by
  cases result with
  | ok batch =>
    refine .bind ((obeys_acknowledgeAll (idsByQueue batch)).mono fun tr₁ _ acknowledged => ?_)
    refine .bind ((obeys_routeAll batch).mono fun tr₂ _ routed => .done ?_)
    obtain ⟨routes, routed, rfl⟩ := routed
    rw [acknowledged, ← List.append_assoc]
    refine settled.taken ⟨fun d hd => ?_, [], routes, routed, rfl⟩ ?_
    · obtain ⟨ids, mem, there⟩ := acknowledged_of_mem hd
      exact ⟨ids, mem, List.mem_append_right _ there⟩
    · exact List.forall_mem_append.mpr ⟨routed.takes_nothing, acknowledgements_take_nothing _⟩
  | error e =>
    have settled₁ := settled.cons (x := ⟨.readUnlessStopped b g consumer services count block stop,
      .value (.error e)⟩) trivial
    cases e with
    | missingQueue queue =>
      refine .bind ((settled_asks (asks_ensureGroup queue) settled₁).mono fun tr r settled => ?_)
      cases r with
      | ok _ => exact .done settled
      | error _ => exact settled_asks asks_pause settled
    | _ => exact settled_asks asks_pause settled₁

theorem settled_dispatch (consumer : String) (services : List String) (settled : Settled node tr) :
    Obeys (sound node) (fun tr _ => Settled node tr) tr
      (Node.Dispatch.round node.shared b consumer services stop) := by
  refine .bind (.request trivial fun raised _ => ?_)
  have settled₁ := settled.cons (x := ⟨.isRaised stop, raised⟩) trivial
  cases raised with
  | true => exact .done settled₁
  | false =>
    refine .bind (.request trivial fun ended _ => ?_)
    cases ended with
    | abandoned => exact .done (settled₁.cons trivial)
    | raised => exact .done (settled₁.cons trivial)
    | value result =>
      refine .bind ((settled_handle result settled₁).mono fun tr goesOn settled => ?_)
      cases goesOn <;> exact .done settled

end Dispatch

section Fire

variable {stop : SignalId}

theorem asks_resync (s : Shared) : Asks (fun r => takes r = false) (Node.Deferred.resync s).run :=
  Node.asks_resync (fun _ => rfl) (fun _ _ => rfl) fun _ => rfl

def Found (node : Setup) (tr : Trail) : Node.Deferred.Step → Prop
  | .fire t => node.Attends t.service ∧
    ∃ now older, tr = ⟨.pending (.next now), .due t⟩ :: older ∧ Settled node older
  | .sleep _ => Settled node tr

theorem found_nextStep (settled : Settled node tr) :
    Obeys (sound node) (Found node) tr (Node.Deferred.nextStep node.shared) := by
  refine .bind (.request trivial fun now _ => ?_)
  have settled₁ := settled.cons (x := ⟨.reading, now⟩) trivial
  refine .bind (.request trivial fun next attends => .done ?_)
  cases next with
  | due t => exact ⟨attends, now, _, rfl, settled₁⟩
  | later t => exact settled₁.cons trivial
  | nothing => exact settled₁.cons trivial

theorem obeys_fire {t : DelayedTask} (attends : node.Attends t.service) :
    Obeys (sound node) (fun tr' _ => ∃ xs, Claim node t xs ∧ tr' = xs ++ tr) tr
      (Node.Deferred.fire node.shared t).run := by
  refine .bindExcept (.lift (.bind (.request trivial fun found known => ?_)))
  obtain ⟨handler, source, b, hresolve, hbroker⟩ := attends.resolve
  obtain rfl : found = node.registry.resolve t.service := known
  have here : (node.registry.resolve t.service).bind
      (fun route => node.shared.brokerOf route.source) = some b := by
    rw [hresolve]
    exact hbroker
  refine .done ?_
  rw [here]
  refine .bindExcept (.lift (.request trivial fun taken ha => ?_))
  obtain ⟨v, rfl⟩ := ha
  cases v with
  | none => exact .done ⟨_, .gone b none here rfl, rfl⟩
  | some payload =>
    cases payload with
    | nil => exact .done ⟨_, .gone b (some []) here rfl, rfl⟩
    | cons byte bytes =>
      exact .lift (.request trivial fun _ _ => ⟨_, .started b (byte :: bytes) here (by simp), rfl⟩)

theorem Claim.takes_nothing {t : DelayedTask} {xs : Trail} (claim : Claim node t xs) :
    ∀ x ∈ xs, takes x.1 = false := by
  cases claim <;> simp [takes]

theorem settled_pauseAfter {step : Node.Deferred.Step} (found : Found node tr step) :
    Obeys (sound node) (fun tr _ => Settled node tr) tr (Node.Deferred.pauseAfter node.shared step) := by
  cases step with
  | sleep d => exact .done found
  | fire t =>
    obtain ⟨attends, now, older, rfl, settled⟩ := found
    refine .bind ((obeys_fire attends).mono fun tr r claimed => ?_)
    obtain ⟨xs, claim, rfl⟩ := claimed
    have settled' := settled.taken (x := ⟨.pending (.next now), .due t⟩) ⟨[], xs, claim, rfl⟩
      claim.takes_nothing
    cases r <;> exact .done settled'

theorem settled_rest (again : Loop) (settled : Settled node tr) :
    Obeys (sound node) (fun tr _ => Settled node tr) tr (Node.Deferred.rest node.shared stop again) := by
  refine .bind ((found_nextStep settled).mono fun tr step found => ?_)
  refine .bind ((settled_pauseAfter found).mono fun tr pause settled => ?_)
  cases pause with
  | none => exact .done settled
  | some d =>
    refine .bind (.request trivial fun ended _ => ?_)
    have settled₁ := settled.cons (x := ⟨.pauseUnlessStopped d stop, ended⟩) trivial
    cases ended <;> exact .done settled₁

theorem settled_fire (last : Nat) (settled : Settled node tr) :
    Obeys (sound node) (fun tr _ => Settled node tr) tr
      (Node.Deferred.round node.shared stop last) := by
  refine .bind (.request trivial fun raised _ => ?_)
  have settled₁ := settled.cons (x := ⟨.isRaised stop, raised⟩) trivial
  cases raised with
  | true => exact .done settled₁
  | false =>
    refine .bind (.request trivial fun now _ => ?_)
    have settled₂ := settled₁.cons (x := ⟨.clock, now⟩) trivial
    cases Node.Deferred.resyncDue node.shared last now with
    | true =>
      simp only [if_true]
      exact .bind ((settled_asks (asks_resync _) settled₂).mono fun tr r settled =>
        settled_rest _ settled)
    | false => exact settled_rest _ settled₂

end Fire

def SettledEnding (node : Setup) (tr : Trail) (v : Ending) : Prop :=
  Settled node tr ∧ ∀ o r, v ≠ .result o r

theorem settled_round (l : Loop) (settled : Settled node tr) :
    Obeys (sound node) (SettledEnding node) tr (round node.shared l) := by
  have rounds : Obeys (sound node) (fun tr _ => Settled node tr) tr (l.round node.shared) := by
    cases l with
    | dispatch b consumer services stop => exact settled_dispatch consumer services settled
    | fire stop last => exact settled_fire last settled
  refine .bind (rounds.mono fun tr r settled => ?_)
  cases r <;> exact .done ⟨settled, by intros; simp⟩

end BrokeredCalls.Shutdown
