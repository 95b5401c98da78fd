import BrokeredCalls.Proofs.Network.Holding

/-!
How tasks leave a pending list. A fire loop claims only what it has in hand, starts what it has claimed
before it does anything else, and never erases; a dispatch loop erases what a tombstone it was given
cancels.
-/

namespace BrokeredCalls.Network

open Node (Effect Loop Shared)
open Program (Asks Obeys)

variable {s : Shared} {tr : Trail} {t u : DelayedTask}

def Taken (t : DelayedTask) : Trail → Prop
  | ⟨.broker _ (.hashTake key field), .ok (some payload)⟩ :: _ => IsField t key field ∧ payload ≠ []
  | _ => False

def Idle (tr : Trail) : Prop := ∀ t, ¬ Taken t tr

theorem Holds.idle (held : Holds t tr) : Idle tr := by
  intro u taken
  unfold Taken at taken
  split at taken
  · exact held
  · exact taken

/-- Requests that take no task, start none and erase none. -/
def calm : Effect → Bool
  | .broker _ (.hashTake ..) | .start _ | .pending (.erase _) => false
  | _ => true

inductive Orderly (tr : Trail) : Effect → Prop
  | calm {r : Effect} (h : calm r = true) (idle : Idle tr) : Orderly tr r
  | claim (b : BrokerId) (t : DelayedTask) (held : Holds t tr) :
    Orderly tr (.broker b (.hashTake (Key.delay t.service) (Decimal.ofInt64 t.fireAt)))
  | start (e : Node.Execution) (t : DelayedTask) (taken : Taken t tr) : Orderly tr (.start e)

theorem Idle.calm {r : Effect} (h : Network.calm r = true) (a : r.Answer) :
    Idle (⟨r, a⟩ :: tr) := by
  intro t taken
  cases r with
  | broker b c =>
    cases c with
    | hashTake => cases h
    | _ => exact taken
  | _ => exact taken

/-- Requests that only read what is durable and who is served. -/
def reads : Effect → Bool
  | .broker _ (.hashFields _) | .servicesOn _ => true
  | _ => false

theorem reads_scan (sources : List Node.Source) :
    Asks (I := Node.interface) (fun r => reads r = true) (Node.Deferred.scan sources).run :=
  Node.asks_scan (fun _ => rfl) fun _ _ => rfl

theorem calm_of_reads {r : Effect} (h : reads r = true) : calm r = true := by
  cases r with
  | broker b c => cases c <;> first | rfl | cases h
  | servicesOn => rfl
  | _ => cases h

section Fire

abbrev order : Conduct Node.interface := ⟨Credible, Orderly⟩

theorem orderly_fire (held : Holds t tr) :
    Obeys order (fun tr _ => Idle tr) tr (Node.Deferred.fire s t).run := by
  refine .bindExcept (.lift (.bind (.request (.calm rfl held.idle) fun found _ => .done ?_)))
  cases found.bind fun route => s.brokerOf route.source with
  | none => exact .done fun _ taken => taken
  | some b =>
    have held₁ : Holds t (⟨.resolve t.service, found⟩ :: tr) := held
    refine .bindExcept (.lift (.request (.claim b t held₁) fun taken _ => ?_))
    cases taken with
    | error e =>
      exact .bindExcept (.lift (.request (.calm rfl fun _ taken => taken) fun _ _ _ taken => taken))
    | ok field =>
      cases field with
      | none => exact .done fun _ taken => taken
      | some payload =>
        cases payload with
        | nil => exact .done fun _ taken => taken.2 rfl
        | cons byte bytes =>
          exact .lift (.request (.start _ t ⟨⟨rfl, rfl⟩, by simp⟩) fun _ _ _ taken => taken)

theorem orderly_resync (idle : Idle tr) :
    Obeys order (fun tr _ => Idle tr) tr (Node.Deferred.resync s).run := by
  have scan : Obeys order (fun tr _ => Idle tr) tr (Node.Deferred.scan s.sources).run :=
    (reads_scan s.sources).obeys (fun _ _ idle h => .calm (calm_of_reads h) idle)
      (fun _ _ a _ h => .calm (calm_of_reads h) a) idle
  refine .bindExcept (scan.mono fun tr r idle => ?_)
  cases r with
  | error e => exact idle
  | ok ts => exact .lift (.request (.calm rfl idle) fun _ _ _ taken => taken)

def Faces (tr : Trail) : Node.Deferred.Step → Prop
  | .fire t => Holds t tr
  | .sleep _ => Idle tr

theorem orderly_nextStep (idle : Idle tr) :
    Obeys order Faces tr (Node.Deferred.nextStep s) := by
  refine .bind (.request (.calm rfl idle) fun now _ => ?_)
  refine .bind (.request (.calm rfl (Idle.calm (r := .reading) rfl now)) fun next _ => .done ?_)
  cases next with
  | due t => exact rfl
  | later t => exact fun _ taken => taken
  | nothing => exact fun _ taken => taken

theorem orderly_pauseAfter {step : Node.Deferred.Step} (faces : Faces tr step) :
    Obeys order (fun tr _ => Idle tr) tr (Node.Deferred.pauseAfter s step) := by
  cases step with
  | sleep d => exact .done faces
  | fire t =>
    refine .bind ((orderly_fire faces).mono fun tr r idle => ?_)
    cases r <;> exact .done idle

theorem orderly_rest (stop : SignalId) (again : Loop) (idle : Idle tr) :
    Obeys order (fun tr r => Idle tr ∧ ∀ l, r = some l → l = again) tr
      (Node.Deferred.rest s stop again) := by
  have goesOn : ∀ l, some again = some l → l = again := fun l h => (Option.some.inj h).symm
  refine .bind ((orderly_nextStep idle).mono fun tr step faces => ?_)
  refine .bind ((orderly_pauseAfter faces).mono fun tr pause idle => ?_)
  cases pause with
  | none => exact .done ⟨idle, goesOn⟩
  | some d =>
    refine .bind (.request (.calm rfl idle) fun ended _ => ?_)
    have idle₁ : Idle (⟨.pauseUnlessStopped d stop, ended⟩ :: tr) :=
      .calm (r := .pauseUnlessStopped d stop) rfl ended
    cases ended with
    | abandoned => exact .done ⟨idle₁, nofun⟩
    | value _ => exact .done ⟨idle₁, goesOn⟩
    | raised => exact .done ⟨idle₁, goesOn⟩

theorem orderly_round (stop : SignalId) (last : Nat) (idle : Idle tr) :
    Obeys order (fun tr r => Idle tr ∧ GoesOnFiring r) tr (Node.Deferred.round s stop last) := by
  have rest (last : Nat) {tr : Trail} (idle : Idle tr) :
      Obeys order (fun tr r => Idle tr ∧ GoesOnFiring r) tr
        (Node.Deferred.rest s stop (.fire stop last)) :=
    (orderly_rest stop _ idle).mono fun tr r h => ⟨h.1, fun l hl => ⟨stop, last, h.2 l hl⟩⟩
  refine .bind (.request (.calm rfl idle) fun raised _ => ?_)
  have idle₁ : Idle (⟨.isRaised stop, raised⟩ :: tr) :=
    .calm (r := .isRaised stop) rfl raised
  cases raised with
  | true => exact .done ⟨idle₁, nofun⟩
  | false =>
    refine .bind (.request (.calm rfl idle₁) fun now _ => ?_)
    have idle₂ : Idle (⟨.clock, now⟩ :: ⟨.isRaised stop, false⟩ :: tr) :=
      .calm (r := .clock) rfl now
    cases Node.Deferred.resyncDue s last now with
    | true =>
      simp only [if_true]
      exact .bind ((orderly_resync idle₂).mono fun tr _ idle => rest now idle)
    | false => exact rest last idle₂

theorem starts_of_taken {r : Effect} (firing : Firing s tr r) (orderly : Orderly tr r)
    (taken : Taken t tr) : ∃ e, r = .start e ∧ e.service = t.service ∧
      e.replyKey = Key.deferredReply t.service t.fireAt := by
  cases orderly with
  | calm h idle => exact absurd taken (idle t)
  | claim b u held => exact absurd taken (held.idle t)
  | start e u _ =>
    cases firing with
    | harmless hh => cases hh
    | start b u payload older claimed =>
      subst claimed
      obtain rfl := taken.1.unique ⟨rfl, rfl⟩
      exact ⟨_, rfl, rfl, rfl⟩

theorem start_of_claim {b : BrokerId} {service : String} {time : FireTime} {payload : Bytes}
    {older : Trail} {r : Effect}
    (firing : Firing s (⟨.broker b (.hashTake (Key.delay service) (Decimal.ofInt64 time)),
      .ok (some payload)⟩ :: older) r)
    (orderly : Orderly (⟨.broker b (.hashTake (Key.delay service) (Decimal.ofInt64 time)),
      .ok (some payload)⟩ :: older) r) (full : payload ≠ []) :
    ∃ e, r = .start e ∧ e.service = service ∧ e.payload = payload ∧
      e.replyKey = Key.deferredReply service time := by
  have taken : Taken ⟨time, service⟩ (⟨.broker b (.hashTake (Key.delay service) (Decimal.ofInt64 time)),
      .ok (some payload)⟩ :: older) := ⟨⟨rfl, rfl⟩, full⟩
  obtain ⟨e, rfl, own, key⟩ := starts_of_taken firing orderly taken
  refine ⟨e, rfl, own, ?_, key⟩
  cases firing with
  | harmless hh => cases hh
  | start b' u payload' older' claimed =>
    simp only [List.cons.injEq, Sigma.mk.injEq] at claimed
    have same : (.ok (some payload) : Except Error (Option Bytes)) = .ok (some payload') :=
      eq_of_heq claimed.1.2
    cases same
    rfl

end Fire

section Dispatch

structure Cancels (d : Delivery) (t : DelayedTask) : Prop where
  tombstone : d.envelope.isTombstone = true
  service : d.envelope.service = t.service
  fireAt : d.envelope.fireAt = some t.fireAt

def Tombstoned (tr : Trail) (r : Effect) : Prop :=
  ∀ t, r = .pending (.erase t) → ∃ d ∈ given tr, Cancels d t

abbrev Spares (r : Effect) : Prop := ∀ t, r ≠ .pending (.erase t)

theorem Tombstoned.spared {r : Effect} (h : Spares r) : Tombstoned tr r :=
  fun t heq => absurd heq (h t)

theorem spared_of_quiet {r : Effect} (h : quiet r = true) : Spares r := by
  rintro t rfl
  cases h

theorem given_subset (x : Exchange Node.interface) : given tr ⊆ given (x :: tr) := by
  intro d hd
  unfold given
  split
  · next heq => cases heq
  · next heq =>
    cases heq
    exact List.mem_append_left _ hd
  · next heq =>
    cases heq
    exact hd

theorem handed_cons {ds : List Delivery} (handed : ds ⊆ given tr) (x : Exchange Node.interface) :
    ds ⊆ given (x :: tr) := List.Subset.trans handed (given_subset x)

abbrev tombstones : Conduct Node.interface := ⟨Credible, Tombstoned⟩

theorem tombstoned_quiet {α : Type} {p : Node.Routine α} (h : Quiet p) {ds : List Delivery}
    (handed : ds ⊆ given tr) : Obeys tombstones (fun tr _ => ds ⊆ given tr) tr p :=
  h.obeys (fun _ _ _ h => .spared (spared_of_quiet h))
    (fun _ _ _ handed _ => handed_cons handed _) handed

theorem tombstoned_route {b : BrokerId} {d : Delivery} {ds : List Delivery} (handed : ds ⊆ given tr)
    (mem : d ∈ ds) :
    Obeys tombstones (fun tr _ => ds ⊆ given tr) tr (Node.Dispatch.route s b d) := by
  unfold Node.Dispatch.route
  dsimp only
  split
  · exact .done handed
  · split
    · next t due =>
      refine .bind ?_
      split
      · next tombstone =>
        have cancels : Cancels d ⟨t, d.envelope.service⟩ := ⟨tombstone, rfl, due⟩
        refine .bindExcept (.lift (.request ?_ fun known _ => ?_))
        · rintro _ ⟨⟩
          exact ⟨d, handed mem, cancels⟩
        · exact .request (.spared nofun) fun _ _ =>
            handed_cons (handed_cons handed _) _
      · refine .bindExcept (.request (.spared nofun) fun written _ => ?_)
        have handed₁ := handed_cons handed ⟨_, written⟩
        cases written with
        | error e => exact handed₁
        | ok _ =>
          exact .bindExcept (.lift (.request (.spared nofun) fun _ _ =>
            handed_cons handed₁ _))
    · exact .request (.spared nofun) fun _ _ => handed_cons handed _

theorem tombstoned_routeAll {b : BrokerId} {ds : List Delivery} (handed : ds ⊆ given tr) :
    Obeys tombstones (fun _ _ => True) tr (Node.Dispatch.routeAll s b ds) := by
  induction ds generalizing tr with
  | nil => exact trivial
  | cons d ds ih =>
    exact .bind ((tombstoned_route handed List.mem_cons_self).mono fun tr _ handed =>
      ih fun x hx => handed (List.mem_cons_of_mem _ hx))

theorem tombstoned_handle {b : BrokerId} {stop : SignalId} {result : Except Error (List Delivery)}
    (handed : ∀ ds, result = .ok ds → ds ⊆ given tr) :
    Obeys tombstones (fun _ _ => True) tr (Node.Dispatch.handle s b stop result) := by
  have quietly {α : Type} {p : Node.Routine α} (h : Quiet p) {tr : Trail} :
      Obeys tombstones (fun _ _ => True) tr p :=
    h.allowed fun _ _ h => Tombstoned.spared (spared_of_quiet h)
  cases result with
  | ok batch =>
    refine .bind ((tombstoned_quiet (quiet_acknowledgeAll _ _) (handed batch rfl)).mono
      fun tr _ handed => ?_)
    exact .bind ((tombstoned_routeAll handed).mono fun _ _ _ => trivial)
  | error e =>
    cases e with
    | missingQueue queue =>
      refine .bind ((quietly (quiet_ensureGroup b queue _)).mono fun tr r _ => ?_)
      cases r with
      | ok _ => exact trivial
      | error e => exact quietly (quiet_pause stop)
    | _ => exact quietly (quiet_pause stop)

theorem tombstoned_round (b : BrokerId) (consumer : String) (services : List String)
    (stop : SignalId) :
    Obeys tombstones (fun _ r => ∀ l, r = some l → l = .dispatch b consumer services stop) tr
      (Node.Dispatch.round s b consumer services stop) := by
  have goesOn : ∀ l, some (Loop.dispatch b consumer services stop) = some l →
      l = .dispatch b consumer services stop := fun l h => (Option.some.inj h).symm
  refine .bind (.request (.spared nofun) fun raised _ => ?_)
  cases raised with
  | true => exact .done nofun
  | false =>
    refine .bind (.request (.spared nofun) fun ended _ => ?_)
    cases ended with
    | abandoned => exact .done nofun
    | raised => exact .done goesOn
    | value result =>
      refine .bind (Obeys.mono (tombstoned_handle ?_) fun tr again _ => ?_)
      · rintro ds rfl
        exact List.subset_append_right _ _
      · cases again with
        | true => exact .done goesOn
        | false => exact .done nofun

end Dispatch

section Others

theorem spares_quiet {α : Type} {p : Node.Routine α} (h : Quiet p) : Asks Spares p :=
  h.mono fun _ => spared_of_quiet

theorem spares_reload : Asks Spares (Node.Deferred.reload s).run :=
  Node.asks_reload (fun _ => nofun) (fun _ _ => nofun) fun _ => nofun

theorem spares_spawn : Asks Spares (Node.spawn s).run := by
  refine .bindExcept (.lift (.request nofun)) fun claimed => ?_
  cases claimed with
  | false => exact trivial
  | true =>
    refine .bindExcept (.lift ?_) fun r => ?_
    · exact .bindExcept (spares_quiet (quiet_provisionAll s.sources)) fun served =>
        .bindExcept spares_reload fun _ => .bindExcept (.lift (.request nofun)) fun stop =>
          .bindExcept (.lift (.request nofun)) fun now => .lift (.request nofun)
    · cases r with
      | ok _ => exact trivial
      | error e => exact .bindExcept (.lift (.request nofun)) fun _ => trivial

theorem spares_operation {o : Operation} (alone : o.alters = none) : Asks Spares (o.routine s) := by
  cases o with
  | call service payload timeout => exact spares_quiet (quiet_callWithTimeout service payload timeout)
  | scheduleAt service instant payload => exact spares_quiet (quiet_scheduleAt service instant payload)
  | cancel service instant => exact spares_quiet (quiet_cancel service instant)
  | awaitScheduled service instant timeout =>
    exact spares_quiet (quiet_awaitScheduled service instant timeout)
  | spawn => exact spares_spawn
  | reload => exact spares_reload
  | shutdown =>
    exact spares_quiet (.bind (.request rfl) fun _ => .bind (.request rfl) fun _ =>
      quiet_closeAll s.sources)
  | add | remove => cases alone

theorem spares_routine (e : Node.Execution) : Asks Spares e.routine :=
  e.asks_routine nofun (fun _ => nofun) fun _ => nofun

end Others

def turn : Job → Trail → Effect → Prop
  | .loop (.fire ..), tr, r => Orderly tr r
  | .loop (.dispatch ..), tr, r => Tombstoned tr r
  | .operation o, _, r => o.alters = none → Spares r
  | .execution _, _, r => Spares r

def turnEnding : Job → Trail → Ending → Prop
  | .loop (.fire ..), tr, v => Idle tr ∧ ∀ l, v = .again l → ∃ stop last, l = .fire stop last
  | .loop (.dispatch ..), _, v =>
    ∀ l, v = .again l → ∃ b consumer services stop, l = .dispatch b consumer services stop
  | _, _, v => ∀ l, v ≠ .again l

theorem turn_work (j : Job) : Obeys ⟨Credible, turn j⟩ (turnEnding j) [] (j.work s) := by
  cases j with
  | operation o =>
    have spares : Obeys ⟨Credible, turn (.operation o)⟩ (fun _ _ => True) [] (o.routine s) := by
      by_cases alone : o.alters = none
      · exact (spares_operation alone).allowed fun _ _ h _ => h
      · exact (Asks.of_forall (fun _ => alone) _).allowed fun _ _ h known => absurd known h
    exact .bind (spares.mono fun _ _ _ => .done nofun)
  | execution e =>
    exact .bind (((spares_routine e).allowed fun _ _ h => h).mono fun _ _ _ => .done nofun)
  | loop l =>
    cases l with
    | dispatch b consumer services stop =>
      refine .done ?_
      rintro _ ⟨⟩
      exact ⟨b, consumer, services, stop, rfl⟩
    | fire stop last =>
      refine .done ⟨fun _ taken => taken, ?_⟩
      rintro _ ⟨⟩
      exact ⟨stop, last, rfl⟩

theorem turn_round (l l' : Loop) (ended : turnEnding (.loop l) tr (.again l')) :
    Obeys ⟨Credible, turn (.loop l)⟩ (turnEnding (.loop l)) tr (round s l') := by
  cases l with
  | dispatch b consumer services stop =>
    obtain ⟨b', consumer', services', stop', rfl⟩ := ended l' rfl
    refine .bind ((tombstoned_round b' consumer' services' stop').mono fun tr r goesOn => ?_)
    cases r with
    | none => exact .done nofun
    | some l =>
      refine .done ?_
      rintro _ ⟨⟩
      exact ⟨b', consumer', services', stop', goesOn l rfl⟩
  | fire stop last =>
    obtain ⟨idle, goesOn⟩ := ended
    obtain ⟨stop', last', rfl⟩ := goesOn l' rfl
    refine .bind ((orderly_round stop' last' idle).mono fun tr r h => ?_)
    cases r with
    | none => exact .done ⟨h.1, nofun⟩
    | some l =>
      refine .done ⟨h.1, ?_⟩
      rintro _ ⟨⟩
      exact h.2 l rfl

def turnTaking (net : NodeId → Setup) : Discipline net where
  rule _ := turn
  ending _ := turnEnding
  works _ := turn_work
  again _ j tr l ended := by
    cases j with
    | loop l' => exact turn_round l' l ended
    | operation o => exact absurd rfl (ended l)
    | execution e => exact absurd rfl (ended l)

end BrokeredCalls.Network
