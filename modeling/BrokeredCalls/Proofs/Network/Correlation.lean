import BrokeredCalls.Proofs.Network.Replies
import BrokeredCalls.Proofs.Network.Script

/-!
Which reply belongs to which call. The entry that a call appends is executed once for each group that
reads its queue, on its own payload, and what the call ends with came of one of these executions.
-/

namespace BrokeredCalls.Network

open Node (Effect Execution Shared)

variable {net : NodeId → Setup} {S : State} {t t' x x' : TaskId} {n m m' : NodeId}
  {service : String} {payload : Bytes} {timeout : Duration}

def Serves (net : NodeId → Setup) (S : State) (t x : TaskId) (m : NodeId) : Prop :=
  ∃ e u b d, Routed net S x m e u b d ∧ Appended S.history t d.queue d.id

def Returned (S : State) (t : TaskId) (n : NodeId) (service : String) (payload : Bytes)
    (timeout : Duration) (v : Except Error Bytes) : Prop :=
  S.tasks t = some ⟨n, .operation (.call service payload timeout),
    .done (.result (.call service payload timeout) v)⟩

def callEnd? : Option Task → Option (NodeId × Job × Operation × Except Error Bytes)
  | some ⟨n, j, .done (.result (.call service payload timeout) v)⟩ =>
    some (n, j, .call service payload timeout, v)
  | _ => none

theorem callEnd?_eq_some {τ : Option Task} {j : Job} {v : Except Error Bytes} :
    callEnd? τ = some (n, j, .call service payload timeout, v) ↔
      τ = some ⟨n, j, .done (.result (.call service payload timeout) v)⟩ := by
  constructor
  · intro h
    unfold callEnd? at h
    split at h
    · cases h
      rfl
    · cases h
  · rintro rfl
    rfl

instance (v : Except Error Bytes) : Decidable (Returned S t n service payload timeout v) :=
  decidable_of_iff _ callEnd?_eq_some

inductive Came (net : NodeId → Setup) (S : State) (x : TaskId) (m : NodeId) (service : String)
    (payload : Bytes) : Reply → Prop
  | ran (h : Handler) (result : Except Error Bytes) (hosts : (net m).hosts service h)
    (run : .served x (.invoke service h payload) result ∈ S.history) :
    Came net S x m service payload (.ofResult result)
  | missing (none : ∀ h, ¬ (net m).hosts service h) :
    Came net S x m service payload (.error (Error.serviceNotFound service).message)

namespace Serves

theorem unique (h : Serves net S t x m) (h' : Serves net S t' x m') (reach : Reachable net S) :
    t = t' := by
  obtain ⟨e, u, b, d, hr, ha⟩ := h
  obtain ⟨e', u', b', d', hr', ha'⟩ := h'
  obtain ⟨rfl, hjob⟩ := hr.task.unique hr'.task
  cases hjob
  obtain ⟨i, hi⟩ := ha.isEntryId reach
  obtain ⟨i', hi'⟩ := ha'.isEntryId reach
  have hkey : Key.reply d.queue d.id = Key.reply d'.queue d'.id := by
    have he := hr.execution reach
    have he' := hr'.execution reach
    exact congrArg Execution.replyKey (he.symm.trans he')
  rw [hi, hi'] at hkey
  obtain ⟨hqueue, hids⟩ := Key.reply_injective hkey
  rw [hi, hids, ← hi', hqueue] at ha
  exact reach.appender_unique ha ha'

theorem execution (h : Serves net S t x m) (reach : Reachable net S)
    (has : S.has t n (.operation (.call service payload timeout))) :
    ∃ e, S.has x m (.execution e) ∧ e.service = service ∧ e.payload = payload := by
  obtain ⟨e, u, b, d, hr, c, env, len, ha⟩ := h
  obtain ⟨consumer, services, stop, hloop⟩ := hr.loop
  obtain ⟨hqueue, rfl⟩ := reach.appended_by_call has ha
  obtain ⟨entry, hd, -, hentry⟩ := reach.entry_of_given hloop hr.handed
  have henv : entry.envelope = (Envelope.immediate service payload).stored d.queue := by
    have hid : d.id = entry.id.text := congrArg Delivery.id hd
    rw [hid] at ha
    exact reach.appended_unique hentry (mem_appendedTo ha)
  have hpayload : d.envelope.payload = payload := by
    rw [hd]
    exact congrArg Envelope.payload henv
  have he := hr.execution reach
  refine ⟨e, hr.task, ?_, ?_⟩
  · rw [he]
    exact hqueue
  · rw [he]
    exact hpayload

theorem once (h : Serves net S t x m) (h' : Serves net S t x' m') (reach : Reachable net S)
    (has : S.has t n (.operation (.call service payload timeout)))
    (group : (net m).shared.config.group = (net m').shared.config.group) : x = x' := by
  obtain ⟨e, u, b, d, hr, ha⟩ := h
  obtain ⟨e', u', b', d', hr', ha'⟩ := h'
  obtain ⟨hqueue, hid⟩ := reach.appended_once has ha ha'
  refine hr.unique hr' reach group ?_
  rw [hr.execution reach, hr'.execution reach, hqueue, hid]

end Serves

theorem Appended.serves {q id : String} (h : Appended S.history t q id) (reach : Reachable net S)
    {e : Execution} (has : S.has x m (.execution e)) (key : e.replyKey = Key.reply q id) :
    Serves net S t x m := by
  obtain ⟨i, rfl⟩ := h.isEntryId reach
  rcases (reach.execution has).2 with ⟨u, b, d, hr⟩ | ⟨u, hc⟩
  · obtain ⟨consumer, services, stop, hloop⟩ := hr.loop
    obtain ⟨entry, hd, -, -⟩ := reach.entry_of_given hloop hr.handed
    have hid : d.id = entry.id.text := congrArg Delivery.id hd
    have hkey : Key.reply q i.text = Key.reply d.queue entry.id.text := by
      rw [← key, hr.execution reach, ← hid]
    obtain ⟨rfl, rfl⟩ := Key.reply_injective hkey
    exact ⟨e, u, b, d, hr, by rw [hid]; exact h⟩
  · -- a fire loop's executions answer where deferred calls are waited for
    have hrule := hc.rule
    cases hrule with
    | harmless hh => cases hh
    | start b t payload older claimed => exact absurd key.symm (Key.reply_ne_deferredReply _ _ _ _)

theorem Outcome.came {e : Execution} {k : Nat} {reply : Reply}
    (h : Outcome e (traceOf x (past S.history k)) reply) (reach : Reachable net S)
    (has : S.has x m (.execution e)) : Came net S x m e.service e.payload reply := by
  cases h with
  | ran handler result run =>
    have hmem := List.mem_of_mem_drop (mem_traceOf.mp run)
    obtain ⟨j, hj⟩ := exists_at_of_mem hmem
    exact .ran handler result (reach.invoked has hj).2.2.1 hmem
  | missing found resolved none =>
    refine .missing fun handler ⟨route, hroute, hhandler⟩ => ?_
    have hfound := reach.resolved has (List.mem_of_mem_drop (mem_traceOf.mp resolved))
    rw [hfound, hroute] at none
    simp [hhandler] at none

theorem Reachable.reply_of_popped (reach : Reachable net S)
    (has : S.has t n (.operation (.call service payload timeout))) {b : BrokerId} {key : String}
    {wait : Duration} {frame : Bytes}
    (h : .served t (.broker b (.popReply key wait)) (.ok (some frame)) ∈ S.history) :
    ∃ x m b' ttl reply, Serves net S t x m ∧ frame = reply.encode ∧
      .served x (.broker b' (.pushReply key frame ttl)) (.ok ()) ∈ S.history ∧
      Came net S x m service payload reply := by
  obtain ⟨id, rfl, happended⟩ := reach.awaited has h
  obtain ⟨x, m, e, k, b', ttl, reply, hx, hkey, hk, hframe, outcome⟩ := reach.pushed_of_popped h
  have hserves : Serves net S t x m := happended.serves reach hx hkey.symm
  obtain ⟨e', hx', hservice, hpayload⟩ := hserves.execution reach has
  obtain ⟨-, hjob⟩ := hx.unique hx'
  cases hjob
  have hcame := outcome.came reach hx
  rw [hservice, hpayload] at hcame
  exact ⟨x, m, b', ttl, reply, hserves, hframe, hk.mem, hcame⟩

theorem Reachable.reply_of_returned (reach : Reachable net S) {v : Except Error Bytes}
    (h : Returned S t n service payload timeout v) {reply : Reply} (hv : v = reply.toResult) :
    ∃ x m, Serves net S t x m ∧ Came net S x m service payload reply := by
  have hkept := ((discipline net).kept reach h).1
  obtain ⟨-, htook⟩ := hkept
  obtain ⟨b, key, wait, frame, hmem, hdecode⟩ := htook reply hv
  obtain ⟨x, m, b', ttl, reply', hserves, rfl, -, hcame⟩ :=
    reach.reply_of_popped ⟨_, h⟩ (mem_traceOf.mp hmem)
  rw [Reply.decode_encode] at hdecode
  cases hdecode
  exact ⟨x, m, hserves, hcame⟩

structure Correlated (net : NodeId → Setup) (S : State) (t : TaskId) (n : NodeId)
    (service : String) (payload : Bytes) (timeout : Duration) : Prop where
  runs : ∀ x m k s h p result, Serves net S t x m →
    At S.history k (.served x (.invoke s h p) result) →
      s = service ∧ p = payload ∧ (net m).hosts service h
  once : ∀ x m x' m' k k' s s' h h' p p' result result', Serves net S t x m → Serves net S t x' m' →
    (net m).shared.config.group = (net m').shared.config.group →
    At S.history k (.served x (.invoke s h p) result) →
    At S.history k' (.served x' (.invoke s' h' p') result') → k = k'
  ok : ∀ bytes, Returned S t n service payload timeout (.ok bytes) →
    ∃ x m h, Serves net S t x m ∧ (net m).hosts service h ∧
      .served x (.invoke service h payload) (.ok bytes) ∈ S.history
  remote : ∀ text, Returned S t n service payload timeout (.error (.remote text)) →
    ∃ x m, Serves net S t x m ∧
      ((∃ h e, (net m).hosts service h ∧
          .served x (.invoke service h payload) (.error e) ∈ S.history ∧ text = e.message) ∨
        (∀ h, ¬ (net m).hosts service h) ∧ text = (Error.serviceNotFound service).message)
  own : ∀ b key wait frame,
    .served t (.broker b (.popReply key wait)) (.ok (some frame)) ∈ S.history →
      ∃ x m b' ttl, Serves net S t x m ∧
        .served x (.broker b' (.pushReply key frame ttl)) (.ok ()) ∈ S.history ∧
        ∀ t' m', Serves net S t' x m' → t' = t

theorem Reachable.correlated (reach : Reachable net S)
    (has : S.has t n (.operation (.call service payload timeout))) :
    Correlated net S t n service payload timeout where
  runs x m k s h p result hserves run := by
    obtain ⟨e, hx, rfl, rfl⟩ := hserves.execution reach has
    obtain ⟨rfl, rfl, hhosts, -⟩ := reach.invoked hx run
    exact ⟨rfl, rfl, hhosts⟩
  once x m x' m' k k' s s' h h' p p' result result' hserves hserves' group run run' := by
    obtain rfl := hserves.once hserves' reach has group
    obtain ⟨e, hx, -, -⟩ := hserves.execution reach has
    exact reach.invoked_once hx run run'
  ok bytes returned := by
    have hv : .ok bytes = (Reply.ok bytes).toResult := rfl
    obtain ⟨x, m, hserves, hcame⟩ := reach.reply_of_returned returned hv
    generalize hreply : Reply.ok bytes = reply at hcame
    cases hcame with
    | ran h result hosts run =>
      cases result with
      | ok p =>
        cases hreply
        exact ⟨x, m, h, hserves, hosts, run⟩
      | error e => cases hreply
    | missing none => cases hreply
  remote text returned := by
    have hv : .error (.remote text) = (Reply.error text).toResult := rfl
    obtain ⟨x, m, hserves, hcame⟩ := reach.reply_of_returned returned hv
    refine ⟨x, m, hserves, ?_⟩
    generalize hreply : Reply.error text = reply at hcame
    cases hcame with
    | ran h result hosts run =>
      cases result with
      | ok p => cases hreply
      | error e =>
        cases hreply
        exact .inl ⟨h, e, hosts, run, rfl⟩
    | missing none =>
      cases hreply
      exact .inr ⟨none, rfl⟩
  own b key wait frame popped := by
    obtain ⟨x, m, b', ttl, reply, hserves, -, hpush, -⟩ := reach.reply_of_popped has popped
    exact ⟨x, m, b', ttl, hserves, hpush, fun t' m' hserves' => hserves'.unique hserves reach⟩

def Event.run : Event → Option (TaskId × String × Bytes × Except Error Bytes)
  | .served x (.invoke service _ payload) result => some (x, service, payload, result)
  | _ => none

theorem At.of_run {H : List Event} {k : Nat} {result : Except Error Bytes}
    (h : H.reverse[k]?.bind Event.run = some (x, service, payload, result)) :
    ∃ handler, At H k (.served x (.invoke service handler payload) result) := by
  obtain ⟨e, he, hrun⟩ := Option.bind_eq_some_iff.mp h
  unfold Event.run at hrun
  split at hrun
  · cases hrun
    exact ⟨_, he⟩
  · cases hrun

def oneCall : State :=
  (State.start ⟨⟨0⟩, 0⟩).play (fun _ => .echo "rpc") <|
    .begin 0 .spawn :: turns 0 0 12 ++ .begin 0 (.call "s" [1] ⟨0⟩) :: turns 13 0 2 ++
      turns 12 1 5 ++ turns 19 0 3 ++ turns 13 0 1

theorem correlated_oneCall :
    Returned oneCall ⟨13, 0⟩ 0 "s" [1] ⟨0⟩ (.ok [1]) ∧
      Correlated (fun _ => .echo "rpc") oneCall ⟨13, 0⟩ 0 "s" [1] ⟨0⟩ := by
  have hreturned : Returned oneCall ⟨13, 0⟩ 0 "s" [1] ⟨0⟩ (.ok [1]) := by decide +kernel
  exact ⟨hreturned, ((Reachable.start _).play _).correlated ⟨_, hreturned⟩⟩

def twoGroups : NodeId → Setup
  | 0 => .echo "rpc"
  | _ => .echo "other"

/-- The second node takes the call too, for its own group. -/
def servedTwice : State :=
  (State.start ⟨⟨0⟩, 0⟩).play twoGroups <|
    .begin 0 .spawn :: turns 0 0 12 ++ .begin 1 .spawn :: turns 13 0 11 ++
      .begin 0 (.call "s" [1] ⟨0⟩) :: turns 25 0 2 ++ turns 12 1 5 ++ turns 24 1 5 ++
      turns 31 0 2 ++ turns 35 0 2

theorem not_once_over_groups :
    ¬ ∀ (net : NodeId → Setup) (S : State), Reachable net S → ∀ t n service payload timeout,
      S.has t n (.operation (.call service payload timeout)) →
        ∀ x m x' m' k k' s s' h h' p p' result result', Serves net S t x m → Serves net S t x' m' →
          At S.history k (.served x (.invoke s h p) result) →
          At S.history k' (.served x' (.invoke s' h' p') result') → k = k' := by
  intro hall
  have reach : Reachable twoGroups servedTwice := (Reachable.start _).play _
  have call : servedTwice.has ⟨25, 0⟩ 0 (.operation (.call "s" [1] ⟨0⟩)) := by decide +kernel
  have sent : Appended servedTwice.history ⟨25, 0⟩ "s" "0-2" := by decide +kernel
  have first : servedTwice.has ⟨31, 0⟩ 0
      (.execution ⟨0, "s", [1], Key.reply "s" "0-2", Config.default.replyTtl⟩) := by decide +kernel
  have second : servedTwice.has ⟨35, 0⟩ 1
      (.execution ⟨0, "s", [1], Key.reply "s" "0-2", Config.default.replyTtl⟩) := by decide +kernel
  have ran : servedTwice.history.reverse[37]?.bind Event.run = some (⟨31, 0⟩, "s", [1], .ok [1]) := by
    decide +kernel
  have ran' : servedTwice.history.reverse[39]?.bind Event.run = some (⟨35, 0⟩, "s", [1], .ok [1]) := by
    decide +kernel
  obtain ⟨h, run⟩ := At.of_run ran
  obtain ⟨h', run'⟩ := At.of_run ran'
  have same := hall twoGroups servedTwice reach _ _ _ _ _ call _ _ _ _ _ _ _ _ _ _ _ _ _ _
    (sent.serves reach first rfl) (sent.serves reach second rfl) run run'
  cases same

end BrokeredCalls.Network
