import BrokeredCalls.Proofs.Asking
import BrokeredCalls.Proofs.Network.Rules
import BrokeredCalls.Proofs.Provisioning.Calls
import BrokeredCalls.Proofs.Retry
import BrokeredCalls.Proofs.Text.Utf8

namespace BrokeredCalls.Network

open Node (Effect Execution Shared Routine Attempt)
open Program (Asks Obeys)

variable {s : Shared}

abbrev Quiet {α : Type} (p : Routine α) : Prop := Asks (fun r => quiet r = true) p

theorem quiet_admits (service : String) : Node.Admits (fun r => quiet r = true) service where
  resolve := rfl
  append _ _ _ := rfl
  draw := rfl
  sleep _ := rfl
  abort _ := rfl
  pop _ _ _ := rfl

def Enqueued (tr : Trail) : Except Error String → Prop
  | .ok id => sent tr = some id
  | .error e => ∀ text, e ≠ .remote text

theorem not_remote {e : Error} (h : e.isTransport = true ∨ ∃ q, e = .missingQueue q)
    (text : String) : e ≠ .remote text := by
  rintro rfl
  rcases h with h | ⟨q, h⟩
  · cases h
  · cases h

theorem calling_loop (b : BrokerId) (service : String) (payload : Bytes) (c : RetryConfig)
    (remaining : Nat) (d : Duration) {tr : Trail} (unsent : sent tr = none) :
    Obeys ⟨Credible, Calling service payload⟩ Enqueued tr
      ((Retry.loop c remaining d).expand (Node.serveRetry s b (.immediate service payload))) := by
  have ended {tr : Trail} (e : Error) (h : Credible (.broker b (.append service
      (.immediate service payload) s.config.maxQueueLength)) (.error e)) :
      Enqueued tr (.error e) := not_remote h
  induction remaining generalizing d tr with
  | zero =>
    rw [Retry.loop_zero]
    refine .ask (Calling.append b _ unsent) fun a ha => ?_
    cases a with
    | ok id => exact .done rfl
    | error e =>
      cases e with
      | transportRetryable text =>
        show Obeys _ Enqueued _ ((Retry.giveUp c text).expand _)
        unfold Retry.giveUp
        split
        · exact .done (ended _ ha)
        · exact .ask (Calling.abort .count) fun a _ => a.elim
      | _ => exact .done (ended _ ha)
  | succ remaining ih =>
    rw [Retry.loop_succ]
    refine .ask (Calling.append b _ unsent) fun a ha => ?_
    cases a with
    | ok id => exact .done rfl
    | error e =>
      cases e with
      | transportRetryable text =>
        refine .ask Calling.draw fun k _ => ?_
        dsimp only [Program.bind]
        cases Retry.jittered d k with
        | error why => exact .ask (Calling.abort (.jitter why)) fun a _ => a.elim
        | ok length =>
          refine .ask (Calling.sleep length) fun _ _ => ?_
          cases c.nextDelay d with
          | error why => exact .ask (Calling.abort (.delay why)) fun a _ => a.elim
          | ok next => exact ih next unsent
      | _ => exact .done (ended _ ha)

theorem calling_enqueue (b : BrokerId) (service : String) (payload : Bytes) {tr : Trail}
    (unsent : sent tr = none) :
    Obeys ⟨Credible, Calling service payload⟩ Enqueued tr
      (Node.enqueue s b (.immediate service payload)).run := by
  cases hr : s.config.retry with
  | none =>
    have heq : (Node.enqueue s b (.immediate service payload)).run =
        (Program.request (I := Retry.interface String) .attempt).expand
          (Node.serveRetry s b (.immediate service payload)) := by
      simp only [Node.enqueue, hr]
      rfl
    rw [heq]
    refine .ask (Calling.append b _ unsent) fun a ha => ?_
    cases a with
    | ok id => exact .done rfl
    | error e => exact .done (not_remote ha)
  | some c =>
    have heq : (Node.enqueue s b (.immediate service payload)).run =
        (Retry.loop c c.maxAttempts.toNat c.initialDelay).expand
          (Node.serveRetry s b (.immediate service payload)) := by
      simp only [Node.enqueue, hr]
      rfl
    rw [heq]
    exact calling_loop b service payload c c.maxAttempts.toNat c.initialDelay unsent

def Replied (tr : Trail) (r : Except Error Bytes) : Prop :=
  ∀ reply, r = reply.toResult → Took tr reply

theorem replied_error {tr : Trail} {e : Error} (h : ∀ text, e ≠ .remote text) :
    Replied tr (.error e) := by
  intro reply heq
  cases reply with
  | ok p => cases heq
  | error text => exact absurd (Except.error.inj heq) (h text)

theorem not_remote_of_decode {frame : Bytes} {e : Error} (h : Reply.decode frame = .error e)
    (text : String) : e ≠ .remote text := not_remote (.inl (Node.decode_error h)) text

section Asking

variable {rule : Trail → Effect → Prop} {tr : Trail}

theorem asked_brokerFor {name : String} (resolves : rule tr (.resolve name)) :
    Obeys ⟨Credible, rule⟩
      (fun tr' r => (∃ found, tr' = ⟨.resolve name, found⟩ :: tr) ∧
        ∀ e, r = .error e → ∀ text, e ≠ .remote text) tr (Node.brokerFor s name).run := by
  rw [Node.brokerFor_eq]
  refine .ask resolves fun found _ => .done ⟨⟨found, rfl⟩, fun e failed text => ?_⟩
  rcases Shared.located_error failed with rfl | ⟨_, rfl⟩ <;> nofun

theorem replied_awaitReply {b : BrokerId} {key : String} {timeout : Duration}
    (pops : rule tr (.broker b (.popReply key timeout))) :
    Obeys ⟨Credible, rule⟩ Replied tr (Node.onBrokerAttempt b (Broker.awaitReply key timeout)).run := by
  refine .ask pops fun a ha => ?_
  cases a with
  | error e => exact .done (replied_error (not_remote ha))
  | ok popped =>
    cases popped with
    | none => exact .done (replied_error (by simp))
    | some frame =>
      have took : ∀ reply, Reply.decode frame = .ok reply →
          Took (⟨.broker b (.popReply key timeout), .ok (some frame)⟩ :: tr) reply :=
        fun reply h => ⟨b, _, timeout, frame, List.mem_cons_self, h⟩
      simp only [Program.bind, ExceptT.bindCont]
      cases hd : Reply.decode frame with
      | error e => exact .done (replied_error (not_remote_of_decode hd))
      | ok reply =>
        have replied : Replied (⟨.broker b (.popReply key timeout), .ok (some frame)⟩ :: tr)
            reply.toResult := by
          intro reply' heq
          rw [← Reply.toResult_injective heq]
          exact took reply hd
        cases reply with
        | ok p => exact .done replied
        | error text => exact .done replied

end Asking

theorem calling_brokerFor (service : String) (payload : Bytes) (name : String) {tr : Trail}
    (unsent : sent tr = none) :
    Obeys ⟨Credible, Calling service payload⟩
      (fun tr r => sent tr = none ∧ ∀ e, r = .error e → ∀ text, e ≠ .remote text) tr
      (Node.brokerFor s name).run := by
  refine (asked_brokerFor (Calling.resolve name)).mono fun tr' r hr => ?_
  obtain ⟨⟨found, rfl⟩, fails⟩ := hr
  exact ⟨unsent, fails⟩

theorem calling_awaitReply (b : BrokerId) (service : String) (payload : Bytes) {id : String}
    (timeout : Duration) {tr : Trail} (hsent : sent tr = some id) :
    Obeys ⟨Credible, Calling service payload⟩ Replied tr
      (Node.onBrokerAttempt b (Broker.awaitReply (Key.reply service id) timeout)).run :=
  replied_awaitReply (Calling.await b id timeout hsent)

theorem calling_callWithTimeout (service : String) (payload : Bytes) (timeout : Duration) :
    Obeys ⟨Credible, Calling service payload⟩ Replied []
      (Node.callWithTimeout s service payload timeout).run := by
  refine .bindExcept ((calling_brokerFor service payload service rfl).mono fun tr r hr => ?_)
  obtain ⟨unsent, fails⟩ := hr
  cases r with
  | error e => exact replied_error (fails e rfl)
  | ok b =>
    refine .bindExcept ?_
    have hp : Obeys ⟨Credible, Calling service payload⟩
        (fun tr' r => tr' = tr ∧ ∀ e, r = .error e → ∀ text, e ≠ .remote text) tr
        (Node.requirePayload service payload).run := by
      unfold Node.requirePayload
      split
      · exact .done ⟨rfl, fun e he text => by cases he; simp⟩
      · exact .done ⟨rfl, fun e he => by cases he⟩
    refine hp.mono fun tr' r hr => ?_
    obtain ⟨rfl, fails⟩ := hr
    cases r with
    | error e => exact replied_error (fails e rfl)
    | ok _ =>
      refine .bindExcept ((calling_enqueue b service payload unsent).mono fun tr r hr => ?_)
      cases r with
      | error e => exact replied_error hr
      | ok id => exact calling_awaitReply b service payload timeout hr

theorem quiet_onBroker {α : Type} {b : BrokerId} {p : Program Broker.interface α}
    (h : Asks (fun c => quiet (.broker b c) = true) p) : Quiet (Node.onBroker b p) :=
  .expand (h.mono fun _ hc => .request hc)

theorem quiet_callWithTimeout (service : String) (payload : Bytes) (timeout : Duration) :
    Quiet (Node.callWithTimeout s service payload timeout).run :=
  (quiet_admits service).callWithTimeout payload timeout

theorem quiet_scheduleAt (service : String) (instant : Instant) (payload : Bytes) :
    Quiet (Node.scheduleAt s service instant payload).run :=
  (quiet_admits service).scheduleAt instant payload

theorem quiet_cancel (service : String) (instant : Instant) :
    Quiet (Node.cancel s service instant).run := (quiet_admits service).cancel instant

theorem quiet_awaitScheduled (service : String) (instant : Instant) (timeout : Duration) :
    Quiet (Node.awaitScheduled s service instant timeout).run :=
  (quiet_admits service).awaitScheduled instant timeout

theorem quiet_ensureGroup (b : BrokerId) (queue group : String) :
    Quiet (Node.onBrokerAttempt b (Broker.ensureGroup queue group)).run :=
  quiet_onBroker (Provisioning.asks_ensureGroup.mono fun _ asked => by cases asked <;> rfl)

theorem quiet_provision (b : BrokerId) (services : List String) :
    Quiet (Node.Dispatch.provision s b services).run :=
  Node.asks_provision fun queue => quiet_ensureGroup b queue _

theorem quiet_provisionAll (sources : List Node.Source) :
    Quiet (Node.provisionAll s sources).run :=
  Node.asks_provisionAll (fun _ => rfl) fun b queue => quiet_ensureGroup b queue _

theorem quiet_closeAll (sources : List Node.Source) : Quiet (Node.closeAll sources) := by
  induction sources with
  | nil => exact trivial
  | cons source rest ih => exact .bind (.request rfl) fun _ => ih

section Scan

variable {K : Conduct Node.interface} {tr : Trail}

theorem Scanned.suffix {tr tr' : Trail} {ts : List DelayedTask} (h : Scanned tr ts)
    (hs : tr <:+ tr') : Scanned tr' ts := by
  intro t ht
  obtain ⟨b, fields, field, hm, hf, hd⟩ := h t ht
  exact ⟨b, fields, field, hs.subset hm, hf, hd⟩

theorem Scanned.append {ts us : List DelayedTask} (h : Scanned tr ts) (k : Scanned tr us) :
    Scanned tr (ts ++ us) := by
  intro t ht
  rcases List.mem_append.mp ht with ht | ht
  · exact h t ht
  · exact k t ht

def Found (tr tr' : Trail) (r : Except Error (List DelayedTask)) : Prop :=
  tr <:+ tr' ∧ ∀ ts, r = .ok ts → Scanned tr' ts

theorem scanned_tasksOf {b : BrokerId} {service : String} {fields : List String}
    (h : (⟨.broker b (.hashFields (Key.delay service)), .ok fields⟩ : Exchange Node.interface) ∈ tr) :
    Scanned tr (Node.Deferred.tasksOf service fields) := by
  intro t ht
  obtain ⟨field, hf, heq⟩ := List.mem_filterMap.mp ht
  obtain ⟨time, htime, rfl⟩ := Option.map_eq_some_iff.mp heq
  exact ⟨b, fields, field, h, hf, htime⟩

theorem found_scanServices (allowed : ∀ tr r, harmless r = true → K.rule tr r) (b : BrokerId)
    (services : List String) :
    Obeys K (Found tr) tr (Node.Deferred.scanServices b services).run := by
  induction services generalizing tr with
  | nil =>
    refine .done ⟨List.suffix_refl tr, fun ts h => ?_⟩
    cases h
    exact fun t ht => absurd ht List.not_mem_nil
  | cons service rest ih =>
    refine .bindExcept (.request (allowed _ _ rfl) fun fields _ => ?_)
    cases fields with
    | error e => exact ⟨List.suffix_cons _ _, fun ts h => by cases h⟩
    | ok fields =>
      refine .bindExcept (ih.mono fun tr' r hr => ?_)
      obtain ⟨hs, hfound⟩ := hr
      have hall : tr <:+ tr' := (List.suffix_cons _ _).trans hs
      cases r with
      | error e => exact ⟨hall, fun ts h => by cases h⟩
      | ok more =>
        refine .done ⟨hall, fun ts h => ?_⟩
        cases h
        exact ((scanned_tasksOf List.mem_cons_self).suffix hs).append (hfound more rfl)

theorem found_scan (allowed : ∀ tr r, harmless r = true → K.rule tr r)
    (sources : List Node.Source) :
    Obeys K (Found tr) tr (Node.Deferred.scan sources).run := by
  induction sources generalizing tr with
  | nil =>
    refine .done ⟨List.suffix_refl tr, fun ts h => ?_⟩
    cases h
    exact fun t ht => absurd ht List.not_mem_nil
  | cons source rest ih =>
    refine .bindExcept (.lift (.request (allowed _ _ rfl) fun services _ => ?_))
    refine .bindExcept ((found_scanServices allowed source.broker services).mono fun tr' r hr => ?_)
    obtain ⟨hs, hfound⟩ := hr
    have hall : tr <:+ tr' := (List.suffix_cons _ _).trans hs
    cases r with
    | error e => exact ⟨hall, fun ts h => by cases h⟩
    | ok found =>
      refine .bindExcept (ih.mono fun tr'' r hr => ?_)
      obtain ⟨hs', hmore⟩ := hr
      cases r with
      | error e => exact ⟨hall.trans hs', fun ts h => by cases h⟩
      | ok more =>
        refine .done ⟨hall.trans hs', fun ts h => ?_⟩
        cases h
        exact ((hfound found rfl).suffix hs').append (hmore more rfl)

end Scan

theorem managing_reload {tr : Trail} :
    Obeys ⟨Credible, Managing⟩ (fun _ _ => True) tr (Node.Deferred.reload s).run := by
  refine .bindExcept ((found_scan (fun tr r => Managing.harmless) s.sources).mono fun tr r hr => ?_)
  cases r with
  | error e => trivial
  | ok ts => exact .lift (.request (Managing.replace ts (hr.2 ts rfl)) fun _ _ => trivial)

theorem managing_of_quiet {α : Type} {p : Routine α} (h : Quiet p) {tr : Trail} :
    Obeys ⟨Credible, Managing⟩ (fun _ _ => True) tr p :=
  h.obeys (fun _ _ _ hr => Managing.harmless (harmless_of_quiet hr)) (fun _ _ _ _ _ => trivial) trivial

theorem managing_startWorkers {tr : Trail} :
    Obeys ⟨Credible, Managing⟩ (fun _ _ => True) tr (Node.startWorkers s).run := by
  refine .bindExcept ((managing_of_quiet (quiet_provisionAll s.sources)).mono fun tr r _ => ?_)
  cases r with
  | error e => trivial
  | ok served =>
    refine .bindExcept (managing_reload.mono fun tr r _ => ?_)
    cases r with
    | error e => trivial
    | ok n =>
      refine .bindExcept (.lift (.request (Managing.harmless rfl) fun stop _ => ?_))
      refine .bindExcept (.lift (.request (Managing.harmless rfl) fun now _ => ?_))
      exact .lift (.request (Managing.harmless rfl) fun _ _ => trivial)

theorem managing_spawn :
    Obeys ⟨Credible, Managing⟩ (fun _ _ => True) [] (Node.spawn s).run := by
  refine .bindExcept (.lift (.request (Managing.harmless rfl) fun claimed _ => ?_))
  cases claimed with
  | true =>
    refine .bindExcept (.lift (managing_startWorkers.mono fun tr r _ => ?_))
    cases r with
    | ok _ => exact trivial
    | error e => exact .bindExcept (.lift (.request (Managing.harmless rfl) fun _ _ => trivial))
  | false => exact trivial

theorem altering_add (b : BrokerId) (service : String) (t : FireTime) (payload : Bytes) :
    Obeys ⟨Credible, Altering service t⟩ (fun _ _ => True) []
      (Node.Deferred.add b service t payload).run := by
  refine .bindExcept (.request (Altering.write b payload) fun written _ => ?_)
  cases written with
  | error e => trivial
  | ok _ =>
    exact .bindExcept (.lift (.request (Altering.track b payload List.mem_cons_self)
      fun _ _ => trivial))

theorem altering_remove (b : BrokerId) (service : String) (t : FireTime) :
    Obeys ⟨Credible, Altering service t⟩ (fun _ _ => True) []
      (Node.Deferred.remove b service t).run :=
  .bindExcept (.lift (.request (Altering.harmless rfl) fun _ _ =>
    .request (Altering.delete b) fun _ _ => trivial))

theorem operation_obeys (o : Operation) :
    Obeys ⟨Credible, o.rule⟩ (fun tr v => ending s (.operation o) tr (.result o v)) []
      (o.routine s) := by
  cases o with
  | call service payload timeout =>
    exact (calling_callWithTimeout service payload timeout).mono fun tr v h => ⟨rfl, h⟩
  | scheduleAt service instant payload =>
    exact (managing_of_quiet (quiet_scheduleAt service instant payload)).mono fun _ _ _ => rfl
  | cancel service instant =>
    exact (managing_of_quiet (quiet_cancel service instant)).mono fun _ _ _ => rfl
  | awaitScheduled service instant timeout =>
    exact (managing_of_quiet (quiet_awaitScheduled service instant timeout)).mono
      fun _ _ _ => rfl
  | add b service t payload => exact (altering_add b service t payload).mono fun _ _ _ => rfl
  | remove b service t => exact (altering_remove b service t).mono fun _ _ _ => rfl
  | spawn => exact managing_spawn.mono fun _ _ _ => rfl
  | reload => exact managing_reload.mono fun _ _ _ => rfl
  | shutdown =>
    refine (managing_of_quiet ?_).mono fun _ _ _ => rfl
    exact .bind (.request rfl) fun _ => .bind (.request rfl) fun _ => quiet_closeAll s.sources

end BrokeredCalls.Network
