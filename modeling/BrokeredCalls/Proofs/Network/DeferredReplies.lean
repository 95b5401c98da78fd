import BrokeredCalls.Proofs.Network.Answering
import BrokeredCalls.Proofs.Network.Claims
import BrokeredCalls.Proofs.Network.Correlation
import BrokeredCalls.Proofs.Network.Turns

/-!
What is left for deferred calls and who takes it. A claim leads to one execution, which leaves one
reply, of what it came to, where this deferred call alone is waited for.
-/

namespace BrokeredCalls.Network

open Node (Effect Execution)

variable {net : NodeId → Setup} {S : State} {H : List Event} {x u w : TaskId} {n m : NodeId}
  {e : Execution} {service service' : String} {t t' : FireTime} {payload payload' : Bytes}
  {key : String} {frame : Bytes} {a : Except Error Unit} {i j k : Nat}

structure Executes (S : State) (x : TaskId) (m : NodeId) (service : String) (t : FireTime)
    (payload : Bytes) : Prop where
  task : ∃ e, S.has x m (.execution e)
  claimed : ∃ u i j, Consumes S.history x u i j service t payload

theorem Wrote.inj (h : Wrote H i service t payload) (h' : Wrote H i service' t' payload') :
    service = service' ∧ t = t' ∧ payload = payload' := by
  obtain ⟨w, b, there⟩ := h
  obtain ⟨w', b', there'⟩ := h'
  have same := there.inj there'
  simp only [Event.served.injEq, Effect.broker.injEq, Broker.Call.hashSet.injEq] at same
  obtain ⟨-, ⟨-, hash, field, value⟩, -⟩ := same
  exact ⟨Key.delay_injective hash, Decimal.ofInt64_injective field, value⟩

theorem Reachable.fires_of_seized (reach : Reachable net S)
    (seized : Seized S.history u j service t payload) :
    ∃ n stop last, S.has u n (.loop (.fire stop last)) := by
  obtain ⟨b, there⟩ := seized
  obtain ⟨n, job, has⟩ := reach.founded.task _ _ _ there.mem
  obtain ⟨stop, last, task, rfl, -⟩ := rule_take ((discipline net).rule_of_served reach there has)
  exact ⟨n, stop, last, has⟩

namespace Executes

theorem unique {m' : NodeId} (h : Executes S x m service t payload)
    (h' : Executes S x m' service' t' payload') : service = service' ∧ t = t' ∧ payload = payload' := by
  obtain ⟨u, i, j, consumes⟩ := h.claimed
  obtain ⟨u', i', j', consumes'⟩ := h'.claimed
  obtain ⟨rfl, -⟩ := consumes.tied consumes'
  exact consumes.write.inj consumes'.write

theorem not_routed (h : Executes S x m service t payload) (reach : Reachable net S) {m' : NodeId}
    {b : BrokerId} {d : Delivery} : ¬ Routed net S x m' e u b d := by
  intro routed
  obtain ⟨consumer, services, stop, loop⟩ := routed.loop
  obtain ⟨u', i, j, consumes⟩ := h.claimed
  obtain ⟨e', started⟩ := consumes.started
  obtain ⟨n, stop', last, fires⟩ := reach.fires_of_seized consumes.claim
  cases routed.started.inj started
  obtain ⟨-, same⟩ := loop.unique fires
  cases same

theorem execution (h : Executes S x m service t payload) (reach : Reachable net S) :
    ∃ e, S.has x m (.execution e) ∧ e.service = service ∧ e.payload = payload ∧
      e.replyKey = Key.deferredReply service t := by
  obtain ⟨e, has⟩ := h.task
  rcases (reach.execution has).2 with ⟨u, b, d, routed⟩ | ⟨u, claimed⟩
  · exact absurd routed (h.not_routed reach)
  · obtain ⟨i, j, t', key, consumes⟩ := claimed.consumes reach
    have own : Executes S x m e.service t' e.payload := ⟨⟨e, has⟩, u, i, j, consumes⟩
    obtain ⟨rfl, rfl, rfl⟩ := h.unique own
    exact ⟨e, has, rfl, rfl, key⟩

theorem not_serves (h : Executes S x m service t payload) (reach : Reachable net S) {c : TaskId}
    {m' : NodeId} : ¬ Serves net S c x m' := by
  rintro ⟨e, u, b, d, routed, -⟩
  exact h.not_routed reach routed

end Executes

theorem Reachable.executes (reach : Reachable net S) (has : S.has x m (.execution e))
    (key : e.replyKey = Key.deferredReply service t) :
    e.service = service ∧ Executes S x m service t e.payload := by
  rcases (reach.execution has).2 with ⟨u, b, d, routed⟩ | ⟨u, claimed⟩
  · obtain ⟨consumer, services, stop, loop⟩ := routed.loop
    obtain ⟨entry, hd, -, -⟩ := reach.entry_of_given loop routed.handed
    have id : d.id = entry.id.text := congrArg Delivery.id hd
    rw [routed.execution reach, id] at key
    exact absurd key (Key.reply_ne_deferredReply _ _ _ _)
  · obtain ⟨i, j, t', key', consumes⟩ := claimed.consumes reach
    obtain ⟨rfl, rfl⟩ := Key.deferredReply_injective (key'.symm.trans key)
    exact ⟨rfl, ⟨e, has⟩, u, i, j, consumes⟩

theorem Leaves.executes (h : Leaves S.history k x (Key.deferredReply service t) frame a)
    (reach : Reachable net S) :
    ∃ m payload reply, Executes S x m service t payload ∧ Reply.decode frame = .ok reply ∧
      Came net S x m service payload reply := by
  obtain ⟨b, ttl, there⟩ := h
  obtain ⟨m, job, has⟩ := reach.founded.task _ _ _ there.mem
  obtain ⟨e, reply, rfl, key, rfl, outcome⟩ :=
    rule_push ((discipline net).rule_of_served reach there has)
  obtain ⟨rfl, executes⟩ := reach.executes has key.symm
  exact ⟨m, e.payload, reply, executes, Reply.decode_encode reply, outcome.came reach has⟩

theorem Reachable.started (reach : Reachable net S)
    (seized : Seized S.history u j service t payload) (full : payload ≠ []) :
    (∃ x m i, Executes S x m service t payload ∧ Consumes S.history x u i j service t payload) ∨
      ∃ e, Asking S u (.start e) ∧ e.service = service ∧ e.payload = payload ∧
        e.replyKey = Key.deferredReply service t := by
  obtain ⟨n, stop, last, fires⟩ := reach.fires_of_seized seized
  obtain ⟨i, wrote, before, latest⟩ := reach.write_of_seized seized
  obtain ⟨b, there⟩ := id seized
  rcases there.next_or_last with ⟨⟨older, trace⟩, -⟩ | ⟨k, r, x, older, after, next, trace, none⟩
  · obtain ⟨work, here⟩ := id fires
    have firing := ((discipline net).kept reach here).1
    have orderly := ((turnTaking net).kept reach here).1
    rw [trace] at firing orderly
    cases work with
    | ask r next =>
      obtain ⟨e, rfl, parts⟩ := start_of_claim firing.1 orderly.1 full
      exact .inr ⟨e, ⟨n, _, next, here⟩, parts⟩
    | done v => exact absurd ⟨⟨rfl, rfl⟩, full⟩ (orderly.1 ⟨t, service⟩)
  · have firing := (discipline net).rule_of_served reach next fires
    have orderly := (turnTaking net).rule_of_served reach next fires
    rw [trace] at firing orderly
    obtain ⟨e, rfl, -⟩ := start_of_claim firing orderly full
    have has : S.has ⟨k, 0⟩ n (.execution e) := reach.child next fires rfl
    have consumes : Consumes S.history ⟨k, 0⟩ u i j service t payload :=
      ⟨wrote, seized, before, latest, ⟨e, next⟩, rfl, after, fun i s b => none i s b⟩
    exact .inl ⟨⟨k, 0⟩, n, i, ⟨⟨e, has⟩, u, i, j, consumes⟩, consumes⟩

theorem Consumes.executes (h : Consumes S.history x u i j service t payload)
    (reach : Reachable net S) : ∃ m, Executes S x m service t payload := by
  obtain ⟨n, stop, last, fires⟩ := reach.fires_of_seized h.claim
  obtain ⟨e, started⟩ := h.started
  have has := reach.child started fires (i := 0) rfl
  rw [← h.first] at has
  exact ⟨n, ⟨e, has⟩, u, i, j, h⟩

/-- The push in event `k` is by an execution of what was claimed in event `j`. -/
def LeadsTo (H : List Event) (j k : Nat) : Prop :=
  ∃ x u i service t payload key frame a,
    Consumes H x u i j service t payload ∧ Leaves H k x key frame a

theorem LeadsTo.unique {k' : Nat} (h : LeadsTo S.history j k) (h' : LeadsTo S.history j k')
    (reach : Reachable net S) : k = k' := by
  obtain ⟨x, u, i, service, t, payload, key, frame, a, consumes, leaves⟩ := h
  obtain ⟨x', u', i', service', t', payload', key', frame', a', consumes', leaves'⟩ := h'
  obtain rfl := consumes.eq_write consumes'
  obtain rfl := consumes.unique consumes'
  obtain ⟨m, executes⟩ := consumes.executes reach
  obtain ⟨e, has⟩ := executes.task
  exact reach.leaves_once has leaves leaves'

structure DeferredReplies (net : NodeId → Setup) (S : State) (source : String → Nat → Nat) : Prop where
  owned : ∀ k x service t frame a, Leaves S.history k x (Key.deferredReply service t) frame a →
    ∃ m payload reply, Executes S x m service t payload ∧ Reply.decode frame = .ok reply ∧
      Came net S x m service payload reply
  once : ∀ j k k', LeadsTo S.history j k → LeadsTo S.history j k' → k = k'
  started : ∀ u j service t payload, Seized S.history u j service t payload → payload ≠ [] →
    (∃ x m i, Executes S x m service t payload ∧ Consumes S.history x u i j service t payload) ∨
      ∃ e, Asking S u (.start e) ∧ e.service = service ∧ e.payload = payload ∧
        e.replyKey = Key.deferredReply service t
  answered : ∀ x m service t payload h result, Executes S x m service t payload →
    .served x (.invoke service h payload) result ∈ S.history →
      (∃ k a, Leaves S.history k x (Key.deferredReply service t) (Reply.ofResult result).encode a) ∨
        ∃ b ttl, Asking S x
          (.broker b (.pushReply (Key.deferredReply service t) (Reply.ofResult result).encode ttl))
  settled : ∀ x m service t payload, Executes S x m service t payload → Over S x →
    (∀ k key frame err, ¬ Leaves S.history k x key frame (.error err)) →
      ∃! k, ∃ frame, Leaves S.history k x (Key.deferredReply service t) frame (.ok ())
  told : ∀ k x key frame a, Leaves S.history k x key frame a →
    a = .ok () ∨ ∃ err, a = .error err ∧ err.isTransport = true
  awaited : ∀ w n service instant timeout v reply, Awaited S w n service instant timeout v →
    v = reply.toResult → ∃ t p frame x m payload, instant.fireTime = .ok t ∧
      Takes S.history p w (Key.deferredReply service t) frame ∧
      source (Key.deferredReply service t) p < p ∧
      Leaves S.history (source (Key.deferredReply service t) p) x (Key.deferredReply service t) frame
        (.ok ()) ∧
      Executes S x m service t payload ∧ Came net S x m service payload reply
  consumed : ∀ key p p' w w' frame frame', Takes S.history p w key frame →
    Takes S.history p' w' key frame' → source key p = source key p' → p = p' ∧ w = w'
  apart : ∀ x m service t payload, Executes S x m service t payload →
    (∀ c m', ¬ Serves net S c x m') ∧ ∀ m' service' t' payload',
      Executes S x m' service' t' payload' → service = service' ∧ t = t' ∧ payload = payload'

theorem DeferredReplies.of_handed (reach : Reachable net S) {source : String → Nat → Nat}
    (handed : ∀ key, Handed S.history key (source key)) : DeferredReplies net S source where
  owned k x service t frame a leaves := leaves.executes reach
  once j k k' led led' := led.unique led' reach
  started u j service t payload seized full := reach.started seized full
  answered x m service t payload h result executes run := by
    obtain ⟨e, has, rfl, rfl, key⟩ := executes.execution reach
    rw [← key]
    exact (reach.answered has run).imp_right fun asking => ⟨_, _, asking⟩
  settled x m service t payload executes ended unfailed := by
    obtain ⟨e, has, -, -, key⟩ := executes.execution reach
    obtain ⟨k, reply, a, leaves⟩ := reach.delivered has ended
    cases a with
    | error err => exact absurd leaves (unfailed _ _ _ _)
    | ok _ =>
      rw [key] at leaves
      refine ⟨k, ⟨reply.encode, leaves⟩, fun k' ⟨frame, leaves'⟩ => ?_⟩
      exact reach.leaves_once has leaves' leaves
  told k x key frame a leaves := leaves.told reach
  awaited w n service instant timeout v reply awaited replied := by
    obtain ⟨t, p, frame, time, takes, decodes⟩ := awaited.takes reach replied
    obtain ⟨before, x, leaves⟩ := (handed _).left p w frame takes
    obtain ⟨m, payload, reply', executes, decodes', came⟩ := leaves.executes reach
    cases decodes.symm.trans decodes'
    exact ⟨t, p, frame, x, m, payload, time, takes, before, leaves, executes, came⟩
  consumed key p p' w w' frame frame' takes takes' same := by
    obtain rfl := (handed key).unique takes takes' same
    exact ⟨rfl, (takes.inj takes').1⟩
  apart x m service t payload executes :=
    ⟨fun c m' => executes.not_serves reach, fun m' service' t' payload' executes' =>
      executes.unique executes'⟩

theorem Reachable.deferredReplies (reach : Reachable net S) :
    ∃ source, DeferredReplies net S source := by
  choose source handed using reach.handed
  exact ⟨source, .of_handed reach handed⟩

/-- A deferred call is made twice for one instant, and two nodes wait for it. -/
def madeTwice : State :=
  (State.start ⟨⟨0⟩, 0⟩).play (fun _ => .echo "rpc") <|
    .begin 0 .spawn :: turns 0 0 12 ++ .begin 0 (.scheduleAt "s" ⟨5⟩ [1]) :: turns 13 0 2 ++
      turns 12 1 6 ++ .pass ⟨⟨10⟩, 0⟩ :: turns 12 0 8 ++ turns 27 0 3 ++
      .begin 0 (.scheduleAt "s" ⟨5⟩ [2]) :: turns 31 0 2 ++ turns 12 1 6 ++ turns 12 0 8 ++
      turns 45 0 3 ++ .begin 0 (.awaitScheduled "s" ⟨5⟩ ⟨0⟩) :: turns 49 0 2 ++
      .begin 1 (.awaitScheduled "s" ⟨5⟩ ⟨0⟩) :: turns 52 0 2

theorem deferredReplies_madeTwice :
    Reachable (fun _ => .echo "rpc") madeTwice ∧
      Awaited madeTwice ⟨49, 0⟩ 0 "s" ⟨5⟩ ⟨0⟩ (.ok [1]) ∧
      Awaited madeTwice ⟨52, 0⟩ 1 "s" ⟨5⟩ ⟨0⟩ (.ok [2]) ∧
      ∃ source, DeferredReplies (fun _ => .echo "rpc") madeTwice source := by
  have reach : Reachable (fun _ => .echo "rpc") madeTwice := (Reachable.start _).play _
  have first : Awaited madeTwice ⟨49, 0⟩ 0 "s" ⟨5⟩ ⟨0⟩ (.ok [1]) := by decide +kernel
  have second : Awaited madeTwice ⟨52, 0⟩ 1 "s" ⟨5⟩ ⟨0⟩ (.ok [2]) := by decide +kernel
  exact ⟨reach, first, second, reach.deferredReplies⟩

end BrokeredCalls.Network
