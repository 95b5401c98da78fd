import BrokeredCalls.Proofs.Hub.Fields
import BrokeredCalls.Proofs.Network.Replies
import BrokeredCalls.Proofs.Network.Script

/-!
Deferred calls. The pending lists of the nodes may be stale in any way; what is executed was claimed
from the durable hash, so every execution consumes the one write that its field held.
-/

namespace BrokeredCalls.Network

open Node (Effect Execution)

variable {net : NodeId → Setup} {S : State} {H : List Event} {x x' u u' : TaskId} {m : NodeId}
  {e : Execution} {key field service service' : String} {t t' : FireTime} {payload payload' : Bytes}
  {i i' j j' k : Nat}

def Event.write (key field : String) : Event → Option (Option Bytes)
  | .served _ r a => (deal ⟨r, a⟩).bind (Hub.Deed.write key field)
  | .began .. => none

/-- Nothing that came after `i` and before `j` made anything of a field. -/
def Untouched (H : List Event) (key field : String) (i j : Nat) : Prop :=
  ∀ k e, i < k → k < j → At H k e → e.write key field = none

def Wrote (H : List Event) (i : Nat) (service : String) (t : FireTime) (payload : Bytes) : Prop :=
  ∃ w b, At H i (.served w (.broker b (.hashSet (Key.delay service) (Decimal.ofInt64 t) payload))
    (.ok ()))

def Seized (H : List Event) (u : TaskId) (j : Nat) (service : String) (t : FireTime)
    (payload : Bytes) : Prop :=
  ∃ b, At H j (.served u (.broker b (.hashTake (Key.delay service) (Decimal.ofInt64 t)))
    (.ok (some payload)))

/-- The execution `x` consumed the write `i`: a task claimed the field as `i` had left it, and started
`x` next. -/
structure Consumes (H : List Event) (x u : TaskId) (i j : Nat) (service : String) (t : FireTime)
    (payload : Bytes) : Prop where
  write : Wrote H i service t payload
  claim : Seized H u j service t payload
  before : i < j
  latest : Untouched H (Key.delay service) (Decimal.ofInt64 t) i j
  started : ∃ e, At H x.event (.served u (.start e) ())
  first : x.index = 0
  next : j < x.event ∧ ∀ k r a, j < k → k < x.event → ¬ At H k (.served u r a)

theorem exists_at_of_traceOf {r : Effect} {a : r.Answer} {tr : Trail}
    (h : traceOf u H = ⟨r, a⟩ :: tr) :
    ∃ j, At H j (.served u r a) ∧ ∀ k s b, j < k → ¬ At H k (.served u s b) := by
  induction H with
  | nil => cases h
  | cons e H ih =>
    have old (hold : traceOf u H = ⟨r, a⟩ :: tr) (hne : ∀ s b, e ≠ .served u s b) :
        ∃ j, At (e :: H) j (.served u r a) ∧ ∀ k s b, j < k → ¬ At (e :: H) k (.served u s b) := by
      obtain ⟨j, hj, hlast⟩ := ih hold
      refine ⟨j, hj.cons e, fun k s b hjk hk => ?_⟩
      rcases At.cons_iff.mp hk with ⟨-, heq⟩ | hk
      · exact hne s b heq
      · exact hlast k s b hjk hk
    cases e with
    | began n o => exact old h fun s b heq => by cases heq
    | served v s b =>
      by_cases hv : v = u
      · subst hv
        rw [traceOf_self] at h
        cases h
        refine ⟨H.length, At.head _, fun k s b hk hat => ?_⟩
        rcases At.cons_iff.mp hat with ⟨rfl, -⟩ | hat
        · exact Nat.lt_irrefl _ hk
        · exact Nat.lt_asymm hk hat.lt
      · rw [traceOf_ne hv] at h
        refine old h fun s' b' heq => hv ?_
        cases heq
        rfl

theorem exists_write_of_replay (h : Hub.replay key field (deeds H) = some payload) :
    ∃ i w b, At H i (.served w (.broker b (.hashSet key field payload)) (.ok ())) ∧
      Untouched H key field i H.length := by
  induction H with
  | nil => cases h
  | cons e H ih =>
    have old (hold : Hub.replay key field (deeds H) = some payload)
        (hsame : e.write key field = none) :
        ∃ i w b, At (e :: H) i (.served w (.broker b (.hashSet key field payload)) (.ok ())) ∧
          Untouched (e :: H) key field i (e :: H).length := by
      obtain ⟨i, w, b, hi, hlast⟩ := ih hold
      refine ⟨i, w, b, hi.cons e, fun k e' hik hk hat => ?_⟩
      rcases At.cons_iff.mp hat with ⟨-, rfl⟩ | hat
      · exact hsame
      · exact hlast k e' hik hat.lt hat
    cases e with
    | began n o => exact old h rfl
    | served v r a =>
      cases hd : deal ⟨r, a⟩ with
      | none =>
        rw [deeds_of_none hd] at h
        exact old h (by simp [Event.write, hd])
      | some d =>
        rw [deeds_of_some hd, Hub.replay] at h
        cases hw : d.write key field with
        | none =>
          rw [hw] at h
          exact old h (by simp [Event.write, hd, hw])
        | some value =>
          rw [hw, Option.getD_some] at h
          subst h
          obtain rfl : d = ⟨.call (.hashSet key field payload), .ok ()⟩ := Hub.Deed.eq_of_write hw
          obtain ⟨b, heq⟩ := exchange_of_deal (by intros; simp) hd
          cases heq
          refine ⟨H.length, v, b, At.head _, fun k e hk hlt hat => ?_⟩
          have hlt := List.length_cons ▸ hlt
          omega

theorem Reachable.field_eq_replay (reach : Reachable net S) (key field : String) :
    S.hub.field key field = Hub.replay key field (deeds S.history) := by
  obtain ⟨ts, run, heq⟩ := reach.run
  rw [run.field, heq]

theorem Reachable.write_of_seized (reach : Reachable net S)
    (h : Seized S.history u j service t payload) :
    ∃ i, Wrote S.history i service t payload ∧ i < j ∧
      Untouched S.history (Key.delay service) (Decimal.ofInt64 t) i j := by
  obtain ⟨b, hj⟩ := h
  obtain ⟨S₀, n, job, next, hub, q, reach₀, hpast, -, answers, -⟩ := reach.before hj
  have hheld : some payload = S₀.hub.field (Key.delay service) (Decimal.ofInt64 t) :=
    Hub.taken_of_does answers.1
  rw [reach₀.field_eq_replay] at hheld
  obtain ⟨i, w, b', hi, hlast⟩ := exists_write_of_replay hheld.symm
  have hle : j ≤ S.history.length := Nat.le_of_lt hj.lt
  have hlen : S₀.history.length = j := by
    rw [hpast, past, List.length_drop]
    omega
  rw [hpast] at hi
  obtain ⟨hij, hi⟩ := (at_past hle).mp hi
  refine ⟨i, ⟨w, b', hi⟩, hij, fun k e hik hkj hk => ?_⟩
  refine hlast k e hik (hlen ▸ hkj) ?_
  rw [hpast]
  exact (at_past hle).mpr ⟨hkj, hk⟩

theorem rule_take {s : Node.Shared} {job : Job} {tr : Trail} {b : BrokerId}
    (h : rule s job tr (.broker b (.hashTake key field))) :
    ∃ stop last task, job = .loop (.fire stop last) ∧ Due tr task ∧
      key = Key.delay task.service ∧ field = Decimal.ofInt64 task.fireAt := by
  rcases rule_cases h with hh | h
  · cases hh
  · cases h with
    | claim b task due => exact ⟨_, _, task, rfl, due, rfl, rfl⟩
    | route duty => cases duty

theorem Reachable.reading_of_seized (reach : Reachable net S)
    (h : Seized S.history u j service t payload) :
    ∃ k v now, k < j ∧ At S.history k (.served v .reading now) ∧ t ≤ now := by
  obtain ⟨b, hj⟩ := h
  obtain ⟨n, job, has⟩ := reach.founded.task _ _ _ hj.mem
  obtain ⟨stop, last, task, rfl, due, hkey, hfield⟩ :=
    rule_take ((discipline net).rule_of_served reach hj has)
  obtain rfl : t = task.fireAt := Decimal.ofInt64_injective hfield
  obtain ⟨now, hread, hnext⟩ := due
  have hle := Nat.le_of_lt hj.lt
  obtain ⟨k, hk⟩ := exists_at_of_mem (mem_traceOf.mp hread)
  obtain ⟨hkj, hk⟩ := (at_past hle).mp hk
  refine ⟨k, u, now, hkj, hk, ?_⟩
  obtain ⟨k', hk'⟩ := exists_at_of_mem (List.mem_of_mem_drop (mem_traceOf.mp hnext))
  obtain ⟨S₀, n', job', next, hub, tasks, -, -, -, answers, -⟩ := reach.before hk'
  exact (TaskQueue.due_of_next answers.2).2

namespace Consumes

theorem write_touches (h : Wrote H i service t payload) :
    ∃ e, At H i e ∧ e.write (Key.delay service) (Decimal.ofInt64 t) ≠ none := by
  obtain ⟨w, b, hi⟩ := h
  exact ⟨_, hi, by simp [Event.write, deal, Hub.Deed.write, Hub.Deed.change]⟩

theorem claim_touches (h : Seized H u j service t payload) :
    ∃ e, At H j e ∧ e.write (Key.delay service) (Decimal.ofInt64 t) ≠ none := by
  obtain ⟨b, hj⟩ := h
  exact ⟨_, hj, by simp [Event.write, deal, Hub.Deed.write, Hub.Deed.change]⟩

theorem idle (h : Consumes H x u i j service t payload) (k : Nat) (y : Event) (hjk : j < k)
    (hk : k < x.event) (hy : At H k y) : ¬ ∃ r a, y = .served u r a := by
  rintro ⟨r, a, rfl⟩
  exact h.next.2 k r a hjk hk hy

theorem eq_claim (h : Consumes H x u i j service t payload)
    (h' : Consumes H x' u' i j' service' t' payload') : j = j' := by
  obtain ⟨w, b, hw⟩ := h.write
  obtain ⟨w', b', hw'⟩ := h'.write
  have hsame := hw.inj hw'
  simp only [Event.served.injEq, Effect.broker.injEq, Broker.Call.hashSet.injEq] at hsame
  obtain ⟨-, ⟨-, hkey, hfield, -⟩, -⟩ := hsame
  obtain ⟨e, hj, he⟩ := claim_touches h.claim
  obtain ⟨e', hj', he'⟩ := claim_touches h'.claim
  have hlatest := h'.latest
  rw [← hkey, ← hfield] at he' hlatest
  refine hj.next_unique (P := fun y => y.write (Key.delay service) (Decimal.ofInt64 t) ≠ none)
    hj' he he' h.before h'.before ?_ ?_
  · exact fun m x hm hmj hx touches => touches (h.latest m x hm hmj hx)
  · exact fun m x hm hmj hx touches => touches (hlatest m x hm hmj hx)

theorem unique (h : Consumes H x u i j service t payload)
    (h' : Consumes H x' u' i j' service' t' payload') : x = x' := by
  obtain rfl := h.eq_claim h'
  obtain ⟨b, hj⟩ := h.claim
  obtain ⟨b', hj'⟩ := h'.claim
  obtain rfl : u = u' := by
    have hsame := hj.inj hj'
    simp only [Event.served.injEq] at hsame
    exact hsame.1
  obtain ⟨e, hstart⟩ := h.started
  obtain ⟨e', hstart'⟩ := h'.started
  have hevent : x.event = x'.event :=
    hstart.next_unique hstart' ⟨_, _, rfl⟩ ⟨_, _, rfl⟩ h.next.1 h'.next.1 h.idle h'.idle
  exact TaskId.ext hevent (h.first.trans h'.first.symm)

theorem eq_write (h : Consumes H x u i j service t payload)
    (h' : Consumes H x' u' i' j service' t' payload') : i = i' := by
  obtain ⟨b, hj⟩ := h.claim
  obtain ⟨b', hj'⟩ := h'.claim
  have hsame := hj.inj hj'
  simp only [Event.served.injEq, Effect.broker.injEq, Broker.Call.hashTake.injEq] at hsame
  obtain ⟨-, ⟨-, hkey, hfield⟩, -⟩ := hsame
  obtain ⟨w, hw, hwrite⟩ := write_touches h.write
  obtain ⟨w', hw', hwrite'⟩ := write_touches h'.write
  have hlatest := h'.latest
  rw [← hkey, ← hfield] at hwrite' hlatest
  refine hw.last_unique (P := fun y => y.write (Key.delay service) (Decimal.ofInt64 t) ≠ none)
    hw' hwrite hwrite' h.before h'.before ?_ ?_
  · exact fun m x hm hmj hx touches => touches (h.latest m x hm hmj hx)
  · exact fun m x hm hmj hx touches => touches (hlatest m x hm hmj hx)

theorem tied (h : Consumes H x u i j service t payload)
    (h' : Consumes H x u' i' j' service' t' payload') : i = i' ∧ j = j' := by
  obtain ⟨e, hstart⟩ := h.started
  obtain ⟨e', hstart'⟩ := h'.started
  obtain rfl : u = u' := by
    have hsame := hstart.inj hstart'
    simp only [Event.served.injEq] at hsame
    exact hsame.1
  obtain ⟨b, hj⟩ := h.claim
  obtain ⟨b', hj'⟩ := h'.claim
  obtain rfl : j = j' :=
    hj.last_unique hj' ⟨_, _, rfl⟩ ⟨_, _, rfl⟩ h.next.1 h'.next.1 h.idle h'.idle
  exact ⟨h.eq_write h', rfl⟩

end Consumes

theorem Claimed.consumes (h : Claimed net S x m e u) (reach : Reachable net S) :
    ∃ i j t, e.replyKey = Key.deferredReply e.service t ∧
      Consumes S.history x u i j e.service t e.payload := by
  have hrule := h.rule
  generalize htr : traceOf u (past S.history x.event) = tr at hrule
  cases hrule with
  | harmless hh => cases hh
  | start b task payload older claimed =>
    rw [claimed] at htr
    obtain ⟨j, hj, hlast⟩ := exists_at_of_traceOf htr
    have hle := Nat.le_of_lt h.started.lt
    obtain ⟨hlt, hj⟩ := (at_past hle).mp hj
    obtain ⟨i, hwrite, hij, hlatest⟩ := reach.write_of_seized ⟨b, hj⟩
    refine ⟨i, j, task.fireAt, rfl, hwrite, ⟨b, hj⟩, hij, hlatest, ⟨_, h.started⟩,
      (reach.execution h.task).1, hlt, fun k r a hjk hk hat => ?_⟩
    exact hlast k r a hjk ((at_past hle).mpr ⟨hk, hat⟩)

structure DeferredOnce (S : State) : Prop where
  written : ∀ x m e service t, S.has x m (.execution e) → e.replyKey = Key.deferredReply service t →
    e.service = service ∧ ∃ u i j, Consumes S.history x u i j service t e.payload
  once : ∀ x x' u u' i j j' service service' t t' payload payload',
    Consumes S.history x u i j service t payload →
      Consumes S.history x' u' i j' service' t' payload' → x = x'
  tied : ∀ x u u' i i' j j' service service' t t' payload payload',
    Consumes S.history x u i j service t payload →
      Consumes S.history x u' i' j' service' t' payload' → i = i' ∧ j = j'
  gone : ∀ i k e service t, i < k → At S.history k e →
    e.write (Key.delay service) (Decimal.ofInt64 t) ≠ none →
      ∀ x u j payload, k < j → ¬ Consumes S.history x u i j service t payload
  runs : ∀ x m e k k' s s' h h' p p' result result', S.has x m (.execution e) →
    At S.history k (.served x (.invoke s h p) result) →
      At S.history k' (.served x (.invoke s' h' p') result') →
        s = e.service ∧ p = e.payload ∧ k = k'

/-- Whatever the nodes add, remove, reload and fire, and in whatever order. -/
theorem Reachable.deferredOnce (reach : Reachable net S) : DeferredOnce S where
  written x m e service t has key := by
    rcases (reach.execution has).2 with ⟨u, b, d, hr⟩ | ⟨u, hc⟩
    · obtain ⟨consumer, services, stop, hloop⟩ := hr.loop
      obtain ⟨entry, hd, -, -⟩ := reach.entry_of_given hloop hr.handed
      have hid : d.id = entry.id.text := congrArg Delivery.id hd
      rw [hr.execution reach, hid] at key
      exact absurd key (Key.reply_ne_deferredReply _ _ _ _)
    · obtain ⟨i, j, t', hkey, hconsumes⟩ := hc.consumes reach
      obtain ⟨rfl, rfl⟩ := Key.deferredReply_injective (hkey.symm.trans key)
      exact ⟨rfl, u, i, j, hconsumes⟩
  once x x' u u' i j j' service service' t t' payload payload' h h' := h.unique h'
  tied x u u' i i' j j' service service' t t' payload payload' h h' := h.tied h'
  gone i k e service t hik hk htouch x u j payload hkj h := htouch (h.latest k e hik hkj hk)
  runs x m e k k' s s' h h' p p' result result' has run run' := by
    obtain ⟨hs, hp, -, -⟩ := reach.invoked has run
    exact ⟨hs, hp, reach.invoked_once has run run'⟩

/-- Two nodes hold a deferred call when it is due, and both try to claim it. -/
def firedOnce : State :=
  (State.start ⟨⟨0⟩, 0⟩).play (fun _ => .echo "rpc") <|
    .begin 0 .spawn :: turns 0 0 12 ++ .begin 1 .spawn :: turns 13 0 10 ++
      .begin 0 (.add 0 "s" 5 [1]) :: turns 24 0 2 ++ .begin 1 .reload :: turns 27 0 3 ++
      .pass ⟨⟨10⟩, 0⟩ :: turns 12 0 8 ++ turns 23 0 7 ++ turns 37 0 2

theorem deferredOnce_firedOnce :
    firedOnce.has ⟨37, 0⟩ 0
        (.execution ⟨0, "s", [1], Key.deferredReply "s" 5, Config.default.replyTtl⟩) ∧
      DeferredOnce firedOnce := by
  have executed : firedOnce.has ⟨37, 0⟩ 0
      (.execution ⟨0, "s", [1], Key.deferredReply "s" 5, Config.default.replyTtl⟩) := by
    decide +kernel
  exact ⟨executed, ((Reachable.start _).play _).deferredOnce⟩

end BrokeredCalls.Network
