import BrokeredCalls.Proofs.Hub.Replies
import BrokeredCalls.Proofs.Network.Executions

/-!
Who appended an entry and who left a reply. No two appends of a queue answer the same id, a caller
appends one entry, and what is taken from a list was left there by an execution.
-/

namespace BrokeredCalls.Network

open Node (Effect Execution Shared)

variable {net : NodeId → Setup} {S : State}

theorem mem_deeds {d : Hub.Deed} {H : List Event} :
    d ∈ deeds H ↔ ∃ t r a, .served t r a ∈ H ∧ deal ⟨r, a⟩ = some d := by
  unfold deeds
  rw [List.mem_filterMap]
  constructor
  · rintro ⟨⟨r, a⟩, hx, hd⟩
    obtain ⟨t, -, ht⟩ := List.mem_flatMap.mp ((perm_tasksOf H).mem_iff.mpr hx)
    exact ⟨t, r, a, mem_traceOf.mp ht, hd⟩
  · rintro ⟨t, r, a, hm, hd⟩
    refine ⟨⟨r, a⟩, (perm_tasksOf H).mem_iff.mp ?_, hd⟩
    exact List.mem_flatMap.mpr ⟨t, mem_tasksOf hm, mem_traceOf.mpr hm⟩

theorem exchange_of_deal {x : Exchange Node.interface} {c : Broker.Call} {v : Except Error c.Value}
    (hc : ∀ g consumer services count block, c ≠ .readGroup g consumer services count block)
    (h : deal x = some ⟨.call c, v⟩) : ∃ b, x = ⟨.broker b c, v⟩ := by
  obtain ⟨r, a⟩ := x
  cases r with
  | broker b c' =>
    cases h
    exact ⟨b, rfl⟩
  | readUnlessStopped b g consumer services count block stop =>
    cases a with
    | value a =>
      cases h
      exact absurd rfl (hc _ _ _ _ _)
    | _ => cases h
  | _ => cases h

def Event.appended (q : String) : Event → List (String × Envelope)
  | .served _ r a => (deal ⟨r, a⟩).elim [] (Hub.Deed.appended q)
  | .began .. => []

theorem appendedTo_deeds (q : String) (H : List Event) :
    Hub.appendedTo q (deeds H) = H.reverse.flatMap (Event.appended q) := by
  induction H with
  | nil => rfl
  | cons e H ih =>
    rw [List.reverse_cons, List.flatMap_append, List.flatMap_singleton, ← ih]
    cases e with
    | began n o => exact (List.append_nil _).symm
    | served t r a =>
      cases hd : deal ⟨r, a⟩ with
      | none =>
        have hnew : Event.appended q (.served t r a) = [] := by simp [Event.appended, hd]
        rw [deeds_of_none hd, hnew, List.append_nil]
      | some d =>
        have hnew : Event.appended q (.served t r a) = d.appended q := by simp [Event.appended, hd]
        rw [deeds_of_some hd, hnew, Hub.appendedTo]

theorem Reachable.nodup_appendedTo (reach : Reachable net S) (q : String) :
    (Hub.appendedTo q (deeds S.history)).Nodup := by
  obtain ⟨ts, earlier, since, delivered, -, heq, b⟩ := reach.booked "" q
  rw [← heq, b.appended]
  exact b.account.ascending.nodup_map fun a a' h => EntryId.text_injective (congrArg Prod.fst h)

theorem At.eq_of_nodup {α : Type} {f : Event → List α} {H : List Event} {k k' : Nat} {e e' : Event}
    {y : α} (h : At H k e) (h' : At H k' e') (nodup : (H.reverse.flatMap f).Nodup) (hy : y ∈ f e)
    (hy' : y ∈ f e') : k = k' := by
  obtain ⟨hk, rfl⟩ := List.getElem?_eq_some_iff.mp h
  obtain ⟨hk', rfl⟩ := List.getElem?_eq_some_iff.mp h'
  have hpair := List.pairwise_iff_getElem.mp (List.nodup_flatMap.mp nodup).2
  rcases Nat.lt_trichotomy k k' with hlt | heq | hlt
  · exact absurd hy' (hpair k k' hk hk' hlt hy)
  · exact heq
  · exact absurd hy (hpair k' k hk' hk hlt hy')

def Appended (H : List Event) (t : TaskId) (q id : String) : Prop :=
  ∃ b e n, .served t (.broker b (.append q e n)) (.ok id) ∈ H

def Event.entry : Event → Option (TaskId × String × String)
  | .served t (.broker _ (.append q _ _)) (.ok id) => some (t, q, id)
  | _ => none

theorem appended_iff {H : List Event} {t : TaskId} {q id : String} :
    Appended H t q id ↔ (t, q, id) ∈ H.filterMap Event.entry := by
  rw [List.mem_filterMap]
  constructor
  · rintro ⟨b, e, n, hm⟩
    exact ⟨_, hm, rfl⟩
  · rintro ⟨x, hm, hx⟩
    unfold Event.entry at hx
    split at hx
    · cases hx
      exact ⟨_, _, _, hm⟩
    · cases hx

instance (H : List Event) (t : TaskId) (q id : String) : Decidable (Appended H t q id) :=
  decidable_of_iff _ appended_iff.symm

theorem mem_appendedTo {H : List Event} {t : TaskId} {b : BrokerId} {q id : String} {e : Envelope}
    {n : Nat} (h : .served t (.broker b (.append q e n)) (.ok id) ∈ H) :
    (id, e.stored q) ∈ Hub.appendedTo q (deeds H) := by
  rw [appendedTo_deeds]
  refine List.mem_flatMap.mpr ⟨_, List.mem_reverse.mpr h, ?_⟩
  show (id, e.stored q) ∈ if q = q then [(id, e.stored q)] else []
  rw [if_pos rfl]
  exact List.mem_singleton_self _

theorem Reachable.appender_unique (reach : Reachable net S) {t t' : TaskId} {q id : String}
    (h : Appended S.history t q id) (h' : Appended S.history t' q id) : t = t' := by
  obtain ⟨b, e, n, hm⟩ := h
  obtain ⟨b', e', n', hm'⟩ := h'
  obtain ⟨k, hk⟩ := exists_at_of_mem hm
  obtain ⟨k', hk'⟩ := exists_at_of_mem hm'
  have hsame : e.stored q = e'.stored q :=
    reach.appended_unique (mem_appendedTo hm) (mem_appendedTo hm')
  have hnodup := reach.nodup_appendedTo q
  rw [appendedTo_deeds] at hnodup
  have hmem {b : BrokerId} {t : TaskId} {e : Envelope} {n : Nat} :
      (id, e.stored q) ∈ Event.appended q (.served t (.broker b (.append q e n)) (.ok id)) := by
    show _ ∈ if q = q then [(id, e.stored q)] else []
    rw [if_pos rfl]
    exact List.mem_singleton_self _
  obtain rfl := hk.eq_of_nodup hk' hnodup hmem (hsame ▸ hmem)
  have hevent := hk.inj hk'
  cases hevent
  rfl

theorem Appended.isEntryId {t : TaskId} {q id : String} (h : Appended S.history t q id)
    (reach : Reachable net S) : ∃ i : EntryId, id = i.text := by
  obtain ⟨b, e, n, hm⟩ := h
  obtain ⟨ts, earlier, since, delivered, -, heq, booked⟩ := reach.booked "" q
  have happended := mem_appendedTo hm
  rw [← heq, booked.appended] at happended
  obtain ⟨a, -, ha⟩ := List.mem_map.mp happended
  exact ⟨a.id, (congrArg Prod.fst ha).symm⟩

theorem sent_of_mem {tr : Trail} {b : BrokerId} {q id : String} {e : Envelope} {n : Nat}
    (h : (⟨.broker b (.append q e n), .ok id⟩ : Exchange Node.interface) ∈ tr) : sent tr ≠ none := by
  induction tr with
  | nil => cases h
  | cons x tr ih =>
    rcases List.mem_cons.mp h with rfl | hold
    · simp [sent]
    · unfold sent
      split
      · next hnil => cases hnil
      · simp
      · next hcons =>
        cases hcons
        exact ih hold

theorem mem_of_sent {tr : Trail} {id : String} (h : sent tr = some id) :
    ∃ b q e n, (⟨.broker b (.append q e n), .ok id⟩ : Exchange Node.interface) ∈ tr := by
  induction tr with
  | nil => cases h
  | cons x tr ih =>
    unfold sent at h
    split at h
    · cases h
    · next hcons =>
      cases hcons
      cases h
      exact ⟨_, _, _, _, List.mem_cons_self⟩
    · next hcons =>
      cases hcons
      obtain ⟨b, q, e, n, hm⟩ := ih h
      exact ⟨b, q, e, n, List.mem_cons_of_mem _ hm⟩

section Calls

variable {t : TaskId} {n : NodeId} {service : String} {payload : Bytes} {timeout : Duration}

theorem Reachable.calling (reach : Reachable net S)
    (has : S.has t n (.operation (.call service payload timeout))) {k : Nat} {r : Effect}
    {a : r.Answer} (served : At S.history k (.served t r a)) :
    Calling service payload (traceOf t (past S.history k)) r :=
  (discipline net).rule_of_served reach served has

theorem Reachable.appended_by_call (reach : Reachable net S)
    (has : S.has t n (.operation (.call service payload timeout))) {b : BrokerId} {q id : String}
    {e : Envelope} {c : Nat}
    (h : .served t (.broker b (.append q e c)) (.ok id) ∈ S.history) :
    q = service ∧ e = .immediate service payload := by
  obtain ⟨k, hk⟩ := exists_at_of_mem h
  cases reach.calling has hk with
  | append => exact ⟨rfl, rfl⟩

theorem Reachable.appended_once (reach : Reachable net S)
    (has : S.has t n (.operation (.call service payload timeout))) {q q' id id' : String}
    (h : Appended S.history t q id) (h' : Appended S.history t q' id') : q = q' ∧ id = id' := by
  obtain ⟨b, e, c, hm⟩ := h
  obtain ⟨b', e', c', hm'⟩ := h'
  obtain ⟨rfl, rfl⟩ := reach.appended_by_call has hm
  obtain ⟨rfl, rfl⟩ := reach.appended_by_call has hm'
  refine ⟨rfl, ?_⟩
  obtain ⟨k, hk⟩ := exists_at_of_mem hm
  obtain ⟨k', hk'⟩ := exists_at_of_mem hm'
  have not_before {k k' : Nat} {b b' : BrokerId} {q q' id id' : String} {e e' : Envelope}
      {c c' : Nat} (hk : At S.history k (.served t (.broker b (.append q e c)) (.ok id)))
      (hk' : At S.history k' (.served t (.broker b' (.append q' e' c')) (.ok id'))) : ¬ k < k' := by
    intro hlt
    cases reach.calling has hk' with
    | append b' c' unsent =>
      have hmem := ((at_past (Nat.le_of_lt hk'.lt)).mpr ⟨hlt, hk⟩).mem
      exact sent_of_mem (mem_traceOf.mpr hmem) unsent
  have hle := not_before hk' hk
  have hle' := not_before hk hk'
  obtain rfl : k = k' := by omega
  have hevent := hk.inj hk'
  cases hevent
  rfl

theorem Reachable.awaited (reach : Reachable net S)
    (has : S.has t n (.operation (.call service payload timeout))) {b : BrokerId} {key : String}
    {wait : Duration} {result : Except Error (Option Bytes)}
    (h : .served t (.broker b (.popReply key wait)) result ∈ S.history) :
    ∃ id, key = Key.reply service id ∧ Appended S.history t service id := by
  obtain ⟨k, hk⟩ := exists_at_of_mem h
  cases reach.calling has hk with
  | await b id wait hsent =>
    obtain ⟨b', q, e, c, hm⟩ := mem_of_sent hsent
    have happend := List.mem_of_mem_drop (mem_traceOf.mp hm)
    obtain ⟨rfl, -⟩ := reach.appended_by_call has happend
    exact ⟨id, rfl, b', e, c, happend⟩

end Calls

theorem rule_push {s : Shared} {j : Job} {tr : Trail} {b : BrokerId} {key : String} {frame : Bytes}
    {ttl : Duration} (h : rule s j tr (.broker b (.pushReply key frame ttl))) :
    ∃ e reply, j = .execution e ∧ key = e.replyKey ∧ frame = reply.encode ∧ Outcome e tr reply := by
  rcases rule_cases h with hh | h
  · cases hh
  · cases h with
    | push e reply outcome => exact ⟨e, reply, rfl, rfl, rfl, outcome⟩
    | route duty => cases duty

theorem Reachable.pushed_of_popped (reach : Reachable net S) {t : TaskId} {b : BrokerId}
    {key : String} {wait : Duration} {frame : Bytes}
    (h : .served t (.broker b (.popReply key wait)) (.ok (some frame)) ∈ S.history) :
    ∃ x m e k b' ttl reply, S.has x m (.execution e) ∧ key = e.replyKey ∧
      At S.history k (.served x (.broker b' (.pushReply key frame ttl)) (.ok ())) ∧
      frame = reply.encode ∧ Outcome e (traceOf x (past S.history k)) reply := by
  obtain ⟨ts, run, heq⟩ := reach.run
  have hpopped : frame ∈ Hub.poppedFrom key (deeds S.history) :=
    Hub.mem_poppedFrom (mem_deeds.mpr ⟨t, _, _, h, rfl⟩)
  have hpushed : frame ∈ Hub.pushedTo key (deeds S.history) := by
    rw [← heq] at hpopped ⊢
    exact (run.frames key).subset (List.mem_append_left _ hpopped)
  obtain ⟨ttl, hdeed⟩ := Hub.mem_pushedTo hpushed
  obtain ⟨x, r, a, hm, hdeal⟩ := mem_deeds.mp hdeed
  obtain ⟨b', heq⟩ := exchange_of_deal (by intros; simp) hdeal
  cases heq
  obtain ⟨k, hk⟩ := exists_at_of_mem hm
  obtain ⟨m, j, has⟩ := reach.founded.task _ _ _ hm
  obtain ⟨e, reply, rfl, hkey, hframe, outcome⟩ :=
    rule_push ((discipline net).rule_of_served reach hk has)
  exact ⟨x, m, e, k, b', ttl, reply, has, hkey, hk, hframe, outcome⟩

end BrokeredCalls.Network
