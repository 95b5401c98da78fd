import BrokeredCalls.Proofs.Pending
import BrokeredCalls.Proofs.Requests

/-!
What the parts of a node ask for, whatever they are answered. A part keeps to some requests if each of its
own is one of them; what a node keeps to is put together of its parts.
-/

namespace BrokeredCalls.Node

open Program (Asks)

variable {P : Effect → Prop} {s : Shared} {service : String} {b : BrokerId} {stop : SignalId}

section Calls

theorem asks_brokerFor (resolve : P (.resolve service)) :
    Asks (I := interface) P (brokerFor s service).run := by
  rw [brokerFor_eq]
  exact ⟨resolve, fun _ => trivial⟩

theorem asks_requirePayload (payload : Bytes) :
    Asks (I := interface) P (requirePayload service payload).run := by
  rw [requirePayload_eq]
  trivial

theorem asks_fireTime (instant : Instant) : Asks (I := interface) P (fireTime instant).run := by
  rw [fireTime_eq]
  trivial

theorem asks_enqueue {e : Envelope}
    (append : P (.broker b (.append e.service e s.config.maxQueueLength)))
    (draw : P .draw) (sleep : ∀ d, P (.sleep d)) (abort : ∀ why, P (.abort why)) :
    Asks (I := interface) P (enqueue s b e).run := by
  refine Asks.expand (.of_forall (fun r => ?_) _)
  cases r with
  | attempt => exact .request append
  | draw => exact .request draw
  | wait _ length => exact .request (sleep length)
  | abort why => exact .request (abort why)

theorem asks_awaitReply {key : String} {timeout : Duration}
    (pop : P (.broker b (.popReply key timeout))) :
    Asks (I := interface) P (onBrokerAttempt b (Broker.awaitReply key timeout)).run := by
  rw [awaitReply_eq]
  exact ⟨pop, fun _ => trivial⟩

structure Admits (P : Effect → Prop) (service : String) : Prop where
  resolve : P (.resolve service)
  append : ∀ b e bound, P (.broker b (.append service e bound))
  draw : P .draw
  sleep : ∀ d, P (.sleep d)
  abort : ∀ why, P (.abort why)
  pop : ∀ b key timeout, P (.broker b (.popReply key timeout))

namespace Admits

variable (admits : Admits P service) (instant : Instant) (payload : Bytes) (timeout : Duration)
include admits

theorem callWithTimeout :
    Asks (I := interface) P (callWithTimeout s service payload timeout).run :=
  .bindExcept (asks_brokerFor admits.resolve) fun b =>
    .bindExcept (asks_requirePayload payload) fun _ =>
      .bindExcept (asks_enqueue (admits.append b _ _) admits.draw admits.sleep admits.abort) fun _ =>
        asks_awaitReply (admits.pop b _ timeout)

theorem scheduleAt : Asks (I := interface) P (scheduleAt s service instant payload).run :=
  .bindExcept (asks_fireTime instant) fun _ =>
    .bindExcept (asks_brokerFor admits.resolve) fun b =>
      .bindExcept (asks_requirePayload payload) fun _ =>
        .bindExcept (asks_enqueue (admits.append b _ _) admits.draw admits.sleep admits.abort) fun _ => trivial

theorem cancel : Asks (I := interface) P (cancel s service instant).run :=
  .bindExcept (asks_fireTime instant) fun _ =>
    .bindExcept (asks_brokerFor admits.resolve) fun b =>
      .bindExcept (asks_enqueue (admits.append b _ _) admits.draw admits.sleep admits.abort) fun _ => trivial

theorem awaitScheduled : Asks (I := interface) P (awaitScheduled s service instant timeout).run :=
  .bindExcept (asks_fireTime instant) fun _ =>
    .bindExcept (asks_brokerFor admits.resolve) fun b => asks_awaitReply (admits.pop b _ timeout)

end Admits

theorem Execution.asks_routine (x : Execution) (resolve : P (.resolve x.service))
    (invoke : ∀ h, P (.invoke x.service h x.payload))
    (push : ∀ frame, P (.broker x.broker (.pushReply x.replyKey frame x.replyTtl))) :
    Asks (I := interface) P x.routine := by
  refine .bind (.bind (.request resolve) fun found => ?_) fun reply => ⟨push _, fun _ => trivial⟩
  cases found.bind (·.handler) with
  | none => exact trivial
  | some handler => exact .bind (.request (invoke handler)) fun _ => trivial

end Calls

section Provisioning

theorem asks_provision {services : List String} (ensures : ∀ queue, Asks (I := interface) P
    (onBrokerAttempt b (Broker.ensureGroup queue s.config.group)).run) :
    Asks (I := interface) P (Dispatch.provision s b services).run := by
  induction services with
  | nil => exact trivial
  | cons service rest ih => exact .bindExcept (ensures service) fun _ => ih

theorem asks_provisionAll {sources : List Source} (lists : ∀ source, P (.servicesOn source))
    (ensures : ∀ b queue, Asks (I := interface) P
      (onBrokerAttempt b (Broker.ensureGroup queue s.config.group)).run) :
    Asks (I := interface) P (provisionAll s sources).run := by
  induction sources with
  | nil => exact trivial
  | cons source rest ih =>
    refine .bindExcept (.lift (.request (lists source.name))) fun services => ?_
    split
    · exact ih
    · exact .bindExcept (asks_provision (ensures source.broker)) fun _ => .bindExcept ih fun _ => trivial

end Provisioning

section Dispatching

theorem asks_pause (pause : ∀ d, P (.pauseUnlessStopped d stop)) :
    Asks (I := interface) P (Dispatch.pause s stop) :=
  .bind (.request (pause _)) fun ended => by cases ended <;> exact trivial

theorem asks_acknowledgeAll {group : String} (batches : List (String × List String))
    (acknowledge : ∀ queue ids, P (.broker b (.acknowledge queue group ids))) :
    Asks (I := interface) P (Dispatch.acknowledgeAll b group batches) := by
  induction batches with
  | nil => exact trivial
  | cons batch rest ih => exact .bind (.request (acknowledge _ _)) fun _ => ih

theorem asks_route (d : Delivery)
    (set : ∀ field payload, P (.broker b (.hashSet (Key.delay d.envelope.service) field payload)))
    (delete : ∀ field, P (.broker b (.hashDelete (Key.delay d.envelope.service) field)))
    (insert : ∀ t, P (.pending (.insert ⟨t, d.envelope.service⟩)))
    (erase : ∀ t, P (.pending (.erase ⟨t, d.envelope.service⟩)))
    (start : ∀ x, P (.start x)) : Asks (I := interface) P (Dispatch.route s b d) := by
  unfold Dispatch.route
  dsimp only
  split
  · exact trivial
  · cases d.envelope.fireAt with
    | none => exact .request (start _)
    | some t =>
      refine .bind ?_ fun _ => trivial
      split
      · exact .bindExcept (.lift (.request (erase t))) fun _ => .request (delete _)
      · exact .bindExcept (.request (set _ _)) fun _ =>
          .bindExcept (.lift (.request (insert t))) fun _ => trivial

end Dispatching

section Firing

theorem asks_scanServices {services : List String}
    (fields : ∀ key, P (.broker b (.hashFields key))) :
    Asks (I := interface) P (Deferred.scanServices b services).run := by
  induction services with
  | nil => exact trivial
  | cons service rest ih =>
    exact .bindExcept (.request (fields (Key.delay service))) fun _ => .bindExcept ih fun _ => trivial

theorem asks_scan {sources : List Source} (lists : ∀ source, P (.servicesOn source))
    (fields : ∀ b key, P (.broker b (.hashFields key))) :
    Asks (I := interface) P (Deferred.scan sources).run := by
  induction sources with
  | nil => exact trivial
  | cons source rest ih =>
    exact .bindExcept (.lift (.request (lists source.name))) fun _ =>
      .bindExcept (asks_scanServices (fields source.broker)) fun _ => .bindExcept ih fun _ => trivial

theorem asks_reload (lists : ∀ source, P (.servicesOn source))
    (fields : ∀ b key, P (.broker b (.hashFields key))) (replace : ∀ ts, P (.pending (.replace ts))) :
    Asks (I := interface) P (Deferred.reload s).run :=
  .bindExcept (asks_scan lists fields) fun ts => .lift (.request (replace ts))

theorem asks_resync (lists : ∀ source, P (.servicesOn source))
    (fields : ∀ b key, P (.broker b (.hashFields key))) (merge : ∀ ts, P (.pending (.merge ts))) :
    Asks (I := interface) P (Deferred.resync s).run :=
  .bindExcept (asks_scan lists fields) fun ts => .lift (.request (merge ts))

def Shared.deferred (s : Shared) (b : BrokerId) (t : DelayedTask) (payload : Bytes) : Execution :=
  ⟨b, t.service, payload, Key.deferredReply t.service t.fireAt, s.config.replyTtl⟩

theorem asks_fire (t : DelayedTask) (resolve : P (.resolve t.service))
    (take : ∀ b, P (.broker b (.hashTake (Key.delay t.service) (Decimal.ofInt64 t.fireAt))))
    (insert : P (.pending (.insert t))) (start : ∀ b payload, P (.start (s.deferred b t payload))) :
    Asks (I := interface) P (Deferred.fire s t).run := by
  refine .bindExcept (.lift (.bind (.request resolve) fun _ => trivial)) fun found => ?_
  cases found with
  | none => exact trivial
  | some b =>
    refine .bindExcept (.lift (.request (take b))) fun taken => ?_
    cases taken with
    | error e => exact .bindExcept (.lift (.request insert)) fun _ => trivial
    | ok field =>
      cases field with
      | none => exact trivial
      | some payload =>
        cases payload with
        | nil => exact trivial
        | cons byte bytes => exact .lift (.request (start b (byte :: bytes)))

theorem asks_rest {again : Loop} (reading : P .reading) (next : ∀ now, P (.pending (.next now)))
    (fires : ∀ t, Asks (I := interface) P (Deferred.fire s t).run)
    (pause : ∀ d, P (.pauseUnlessStopped d stop)) :
    Asks (I := interface) P (Deferred.rest s stop again) := by
  refine .bind (.bind (.request reading) fun now => .bind (.request (next now)) fun _ => trivial)
    fun step => .bind ?_ fun wait => ?_
  · cases step with
    | sleep d => exact trivial
    | fire t =>
      refine .bind (fires t) fun r => ?_
      cases r <;> exact trivial
  · cases wait with
    | none => exact trivial
    | some d =>
      refine .bind (.request (pause d)) fun ended => ?_
      cases ended <;> exact trivial

theorem asks_round {last : Nat} (raised : P (.isRaised stop)) (clock : P .clock)
    (resyncs : Asks (I := interface) P (Deferred.resync s).run)
    (rests : ∀ again, Asks (I := interface) P (Deferred.rest s stop again)) :
    Asks (I := interface) P (Deferred.round s stop last) := by
  refine .bind (.request raised) fun ends => ?_
  cases ends with
  | true => exact trivial
  | false =>
    refine .bind (.request clock) fun now => ?_
    cases Deferred.resyncDue s last now with
    | true =>
      simp only [if_true]
      exact .bind resyncs fun _ => rests _
    | false => exact rests _

end Firing

end BrokeredCalls.Node
