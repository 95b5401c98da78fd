import BrokeredCalls.Proofs.Network.Changes
import BrokeredCalls.Proofs.Network.Script
import Mathlib.Data.List.Perm.Basic

/-!
What competing nodes make of the deferred calls and tombstones of a queue. Each is applied once, and
a node applies its own in the order of the queue; between two nodes the order is that of their calls
on the broker, so only what one node was handed is sure to end as the queue has it.
-/

namespace BrokeredCalls.Network

open Node (Effect Shared)

variable {net : NodeId → Setup} {S : State} {g q : String} {u : TaskId} {n : NodeId} {b : BrokerId}
  {consumer : String} {services : List String} {stop : SignalId} {tr : Trail} {d d' : Delivery}
  {H : List Event}

/-- One group has dealt with a queue, no call on a broker failed, no fire time was reached, and no
scheduler was asked directly. -/
structure Settled (net : NodeId → Setup) (S : State) (g q : String) : Prop where
  one : ∀ g', g' ≠ g → Hub.deliveredTo g' q (deeds S.history) = []
  delivered : ∀ x ∈ Hub.appendedSince g q (deeds S.history),
    x.1 ∈ (Hub.deliveredTo g q (deeds S.history)).map (·.id)
  routed : ∀ u n b consumer services stop,
    S.has u n (.loop (.dispatch b consumer services stop)) →
      duties (net n).shared b (traceOf u S.history) = routed (traceOf u S.history)
  ok : ∀ t r a, .served t r a ∈ S.history → failed ⟨r, a⟩ = false
  early : ∀ t now, .served t .reading now ∈ S.history →
    ∀ x ∈ Hub.appendedSince g q (deeds S.history), ∀ f, x.2.fireAt = some f → now < f
  alone : ∀ n o, .began n o ∈ S.history → o.alters ≠ some q

theorem Reachable.since_of_delivered (reach : Reachable net S)
    (h : d ∈ Hub.deliveredTo g q (deeds S.history)) :
    ∃ e : Hub.Entry, d = e.delivery q ∧ e.noted ∈ Hub.appendedSince g q (deeds S.history) := by
  obtain ⟨ts, earlier, since, delivered, -, heq, b⟩ := reach.booked g q
  rw [← heq] at h ⊢
  rw [b.delivered] at h
  obtain ⟨e, he, rfl⟩ := List.mem_map.mp h
  refine ⟨e, rfl, ?_⟩
  rw [b.recent]
  exact List.mem_map_of_mem (b.account.partition.mem_iff.mpr (by simp [he]))

theorem given_of_written (reach : Reachable net S)
    (has : S.has u n (.loop (.dispatch b consumer services stop))) {b' : BrokerId} {t : FireTime}
    {payload : Bytes} {a : Except Error Unit}
    (h : .served u (.broker b' (.hashSet (Key.delay q) (Decimal.ofInt64 t) payload)) a ∈ S.history) :
    ∃ d ∈ Hub.deliveredTo (net n).shared.config.group q (deeds S.history),
      d.envelope.fireAt = some t := by
  obtain ⟨d, hd, hduty⟩ := given_of_routed (reach.conforms has) (mem_routed (mem_traceOf.mpr h) rfl)
  have hchange := asked_duty (net n).shared b q d
  rw [hduty] at hchange
  simp only [Option.bind_some, Asked, if_true] at hchange
  split at hchange
  · next hq =>
    obtain ⟨_, -, hqueue, -⟩ := reach.entry_of_given has hd
    obtain rfl : d.queue = q := hqueue.symm.trans hq
    refine ⟨d, reach.mem_deliveredTo has hd, ?_⟩
    obtain ⟨t', ht', hsame⟩ := Option.map_eq_some_iff.mp hchange.symm
    rw [ht', Decimal.ofInt64_injective (congrArg Prod.fst hsame)]
  · cases hchange

theorem filterMap_eq_of_sublist {α β : Type} {f : α → Option β} {xs ys : List α}
    (h : xs.Sublist ys) (nodup : ys.Nodup) (all : ∀ y ∈ ys, f y ≠ none → y ∈ xs) :
    xs.filterMap f = ys.filterMap f := by
  induction h with
  | slnil => rfl
  | @cons xs ys y h ih =>
    obtain ⟨hnot, hrest⟩ := List.nodup_cons.mp nodup
    have hnone : f y = none := by
      by_contra hsome
      exact hnot (h.subset (all y List.mem_cons_self hsome))
    rw [List.filterMap_cons_none hnone]
    exact ih hrest fun z hz => all z (List.mem_cons_of_mem _ hz)
  | @cons_cons xs ys y h ih =>
    obtain ⟨hnot, hrest⟩ := List.nodup_cons.mp nodup
    have hih := ih hrest fun z hz hsome => by
      rcases List.mem_cons.mp (all z (List.mem_cons_of_mem _ hz) hsome) with rfl | hold
      · exact absurd hz hnot
      · exact hold
    cases hy : f y with
    | none => rw [List.filterMap_cons_none hy, List.filterMap_cons_none hy, hih]
    | some z => rw [List.filterMap_cons_some hy, List.filterMap_cons_some hy, hih]

namespace Settled

theorem group_eq (settled : Settled net S g q) {g' : String}
    (h : d ∈ Hub.deliveredTo g' q (deeds S.history)) : g' = g := by
  by_contra hne
  rw [settled.one g' hne] at h
  cases h

variable (settled : Settled net S g q) (reach : Reachable net S)

include settled reach

theorem dispatch_of_made {j : Job} {r : Effect} {a : r.Answer} {c : Hub.Change}
    (has : S.has u n j) (h : .served u r a ∈ S.history)
    (hmade : made (Key.delay q) ⟨r, a⟩ = some c) :
    ∃ b consumer services stop, j = .loop (.dispatch b consumer services stop) := by
  have unasked {u : TaskId} {n : NodeId} {o : Operation} (has : S.has u n (.operation o))
      (ho : o.alters = some q) : False :=
    settled.alone n o (reach.began has).1.mem ho
  obtain ⟨k, hk⟩ := exists_at_of_mem h
  rcases rule_change ((discipline net).rule_of_served reach hk has) hmade with
    hloop | ⟨o, rfl, ho⟩ | ⟨b, f, v, heq⟩
  · exact hloop
  · exact (unasked has ho).elim
  · -- a claim consumes a write, and none of the writes was due
    exfalso
    cases heq
    obtain ⟨_, _, task, -, -, hkey, rfl⟩ :=
      rule_take ((discipline net).rule_of_served reach hk has)
    have hseized : Seized S.history u k q task.fireAt v := ⟨b, hk⟩
    obtain ⟨i, ⟨w, b', hi⟩, -, -⟩ := reach.write_of_seized hseized
    obtain ⟨n', j', hw⟩ := reach.founded.task _ _ _ hi.mem
    have hwrites : made (Key.delay q) ⟨.broker b' (.hashSet (Key.delay q)
        (Decimal.ofInt64 task.fireAt) v), .ok ()⟩ = some (Decimal.ofInt64 task.fireAt, some v) := by
      simp [made, deal, Hub.Deed.change]
    rcases rule_change ((discipline net).rule_of_served reach hi hw) hwrites with
      ⟨c, consumer, services, stop, rfl⟩ | ⟨o, rfl, ho⟩ | ⟨_, _, _, heq⟩
    · obtain ⟨d, hd, hfire⟩ := given_of_written reach hw hi.mem
      obtain rfl := settled.group_eq hd
      obtain ⟨e, rfl, he⟩ := reach.since_of_delivered hd
      obtain ⟨m, r, now, -, hread, hnow⟩ := reach.reading_of_seized hseized
      exact absurd (settled.early r now hread.mem _ he _ hfire) (Int64.not_lt.mpr hnow)
    · exact unasked hw ho
    · cases heq

theorem made_eq_given (has : S.has u n (.loop (.dispatch b consumer services stop))) :
    ((traceOf u S.history).filterMap (made (Key.delay q))).reverse =
      ((given (traceOf u S.history)).filter (·.queue = q)).filterMap (·.envelope.change) := by
  have hok : ∀ x ∈ traceOf u S.history, failed x = false := fun x hx =>
    settled.ok u x.1 x.2 (mem_traceOf.mp hx)
  rw [made_eq_routed (reach.conforms has) hok, ← settled.routed u n b consumer services stop has,
    duties, List.filterMap_filterMap, List.filterMap_filter]
  refine List.filterMap_congr fun d hd => ?_
  obtain ⟨_, -, hqueue, -⟩ := reach.entry_of_given has hd
  rw [asked_duty, hqueue]
  simp

theorem perm_made (u : TaskId) :
    ((traceOf u S.history).filterMap (made (Key.delay q))).Perm
      (((traceOf u S.history).flatMap (gave g q)).filterMap (·.envelope.change)) := by
  cases htrace : traceOf u S.history with
  | nil => exact .nil
  | cons x tr =>
    rw [← htrace]
    have hx : .served u x.1 x.2 ∈ S.history := mem_traceOf.mp (by simp [htrace])
    obtain ⟨n, j, has⟩ := reach.founded.task _ _ _ hx
    by_cases hj : ∃ b consumer services stop, j = .loop (.dispatch b consumer services stop)
    · obtain ⟨b, consumer, services, stop, rfl⟩ := hj
      have hmade := settled.made_eq_given reach has
      by_cases hg : (net n).shared.config.group = g
      · have hgiven := perm_given (reach.conforms has) q
        rw [hg] at hgiven
        refine (List.reverse_perm _).symm.trans ?_
        rw [hmade]
        exact (hgiven.filterMap _).symm
      · have hsub := sublist_deliveredTo (reach.conforms has) q
        rw [settled.one _ hg] at hsub
        rw [List.sublist_nil.mp hsub, List.filterMap_nil, List.reverse_eq_nil_iff] at hmade
        rw [hmade, gave_eq_nil (reach.conforms has) (.inl (Ne.symm hg))]
        exact .nil
    · have hmade : (traceOf u S.history).filterMap (made (Key.delay q)) = [] := by
        rw [List.filterMap_eq_nil_iff]
        intro y hy
        cases hc : made (Key.delay q) y with
        | none => rfl
        | some c => exact absurd (settled.dispatch_of_made reach has (mem_traceOf.mp hy) hc) hj
      rw [hmade, gave_eq_nil (reach.conforms has) (.inr fun b c ss st h => hj ⟨b, c, ss, st, h⟩)]
      exact .nil

theorem announced_eq : announced g q S.history =
    (Hub.deliveredTo g q (deeds S.history)).filterMap (·.envelope.change) := by
  obtain ⟨ts, earlier, since, delivered, -, heq, b⟩ := reach.booked g q
  have hall : since = delivered := by
    refine b.eq_of_all fun e he => ?_
    have hmem := settled.delivered e.noted
    rw [← heq, b.recent, b.delivered, List.map_map] at hmem
    obtain ⟨e', he', hid⟩ := List.mem_map.mp (hmem (List.mem_map_of_mem he))
    exact ⟨e', he', EntryId.text_injective hid⟩
  unfold announced
  rw [← heq, b.recent, b.delivered, hall, List.filterMap_map, List.filterMap_map]
  rfl

theorem perm_announced : (applied q S.history).Perm (announced g q S.history) := by
  rw [settled.announced_eq reach]
  refine (perm_applied q S.history).trans ?_
  refine (List.Perm.flatMap_left _ fun u _ => settled.perm_made reach u).trans ?_
  rw [← List.filterMap_flatMap]
  exact (perm_shares g q S.history).symm.filterMap _

theorem sole (has : S.has u n (.loop (.dispatch b consumer services stop))) {field : String}
    (handed : ∀ d ∈ Hub.deliveredTo g q (deeds S.history), ∀ v,
      d.envelope.change = some (field, v) → d ∈ given (traceOf u S.history)) :
    (applied q S.history).filter (·.1 = field) = (announced g q S.history).filter (·.1 = field) := by
  set all := Hub.deliveredTo g q (deeds S.history) with hall
  set own := (given (traceOf u S.history)).filter (·.queue = q) with hown
  have hsub : own.Sublist all := by
    have hgroup := sublist_deliveredTo (reach.conforms has) q
    by_cases hg : (net n).shared.config.group = g
    · rwa [hg] at hgroup
    · rw [settled.one _ hg] at hgroup
      rw [hown, List.sublist_nil.mp hgroup]
      exact List.nil_sublist _
  have hsame : all.filterMap (fun d => d.envelope.change.filter (·.1 = field)) =
      own.filterMap (fun d => d.envelope.change.filter (·.1 = field)) := by
    refine (filterMap_eq_of_sublist hsub (reach.nodup_deliveredTo g q) fun d hd hsome => ?_).symm
    obtain ⟨⟨f, v⟩, hc⟩ := Option.ne_none_iff_exists'.mp hsome
    obtain ⟨hchange, hf⟩ := Option.filter_eq_some_iff.mp hc
    obtain rfl : f = field := by simpa using hf
    obtain ⟨e, rfl, -⟩ := reach.since_of_delivered hd
    exact List.mem_filter.mpr ⟨handed _ hd v hchange, by simp [Hub.Entry.delivery]⟩
  have hasked : (announced g q S.history).filter (·.1 = field) =
      ((traceOf u S.history).filterMap (made (Key.delay q))).reverse.filter (·.1 = field) := by
    rw [settled.announced_eq reach, settled.made_eq_given reach has, List.filter_filterMap,
      List.filter_filterMap]
    exact hsame
  have hmade : (((traceOf u S.history).filterMap (made (Key.delay q))).reverse.filter
      (·.1 = field)).Sublist ((applied q S.history).filter (·.1 = field)) := by
    rw [applied_eq]
    exact (((sublist_exchanges u S.history).filterMap _).reverse).filter _
  rw [← hasked] at hmade
  exact (hmade.eq_of_length ((settled.perm_announced reach).filter _).length_eq.symm).symm

end Settled

def forGroup (g q : String) (x : Exchange Node.interface) : Bool :=
  match deal x with
  | some ⟨.call (.readGroup g' ..), .ok ds⟩ => g' = g || ds.all (·.queue ≠ q)
  | _ => true

def timely (recent : List (String × Envelope)) : Exchange Node.interface → Bool
  | ⟨.reading, now⟩ => recent.all fun x => x.2.fireAt.all (now < ·)
  | _ => true

def idle (net : NodeId → Setup) (S : State) (u : TaskId) : Bool :=
  match S.tasks u with
  | some ⟨n, .loop (.dispatch b _ _ _), _⟩ =>
    (duties (net n).shared b (traceOf u S.history)).length ≤ (routed (traceOf u S.history)).length
  | _ => true

def indirect (q : String) : Event → Bool
  | .began _ o => o.alters ≠ some q
  | _ => true

def settled? (net : NodeId → Setup) (S : State) (g q : String) : Bool :=
  let recent := Hub.appendedSince g q (deeds S.history)
  (exchanges S.history).all (fun x => forGroup g q x && !failed x && timely recent x) &&
    recent.all (fun x => x.1 ∈ (Hub.deliveredTo g q (deeds S.history)).map (·.id)) &&
      (tasksOf S.history).all (idle net S) && S.history.all (indirect q)

theorem mem_exchanges {t : TaskId} {r : Effect} {a : r.Answer} (h : .served t r a ∈ H) :
    (⟨r, a⟩ : Exchange Node.interface) ∈ exchanges H :=
  (sublist_exchanges t H).subset (mem_traceOf.mpr h)

theorem gave_of_forGroup {x : Exchange Node.interface} (h : forGroup g q x = true) {g' : String}
    (hg : g' ≠ g) : gave g' q x = [] := by
  rw [List.eq_nil_iff_forall_not_mem]
  intro d hd
  obtain ⟨consumer, services, count, block, ds, hdeal, hmem, hqueue⟩ := mem_gave hd
  unfold forGroup at h
  rw [hdeal] at h
  simp only [Bool.or_eq_true, decide_eq_true_eq, List.all_eq_true] at h
  rcases h with h | h
  · exact hg h
  · exact h d hmem hqueue

theorem routed_of_idle (reach : Reachable net S)
    (has : S.has u n (.loop (.dispatch b consumer services stop)))
    (h : u ∈ tasksOf S.history → idle net S u = true) :
    duties (net n).shared b (traceOf u S.history) = routed (traceOf u S.history) := by
  obtain ⟨rest, owes⟩ := owes_of_conforms (reach.conforms has)
  by_cases hu : u ∈ tasksOf S.history
  · obtain ⟨w, hw⟩ := has
    have hidle := h hu
    simp only [idle, hw, decide_eq_true_eq] at hidle
    rw [owes, List.length_append] at hidle
    have hrest : rest = [] := List.eq_nil_of_length_eq_zero (by omega)
    rw [owes, hrest, List.append_nil]
  · have htrace : traceOf u S.history = [] :=
      traceOf_eq_nil fun r a hm => hu (mem_tasksOf hm)
    rw [htrace]
    rfl

theorem Settled.of_check (reach : Reachable net S) (h : settled? net S g q = true) :
    Settled net S g q := by
  simp only [settled?, Bool.and_eq_true, List.all_eq_true] at h
  obtain ⟨⟨⟨hall, hdelivered⟩, hidle⟩, hindirect⟩ := h
  refine ⟨fun g' hg => ?_, fun x hx => by simpa using hdelivered x hx,
    fun u n b consumer services stop has => routed_of_idle reach has (hidle u),
    fun t r a hm => by simpa using (hall _ (mem_exchanges hm)).1.2, fun t now hm x hx f hf => ?_,
    fun n o hm => by simpa [indirect] using hindirect _ hm⟩
  · have hnil : (exchanges S.history).flatMap (gave g' q) = [] :=
      List.flatMap_eq_nil_iff.mpr fun x hx => gave_of_forGroup (hall x hx).1.1 hg
    have hperm := perm_deliveredTo g' q S.history
    rw [hnil] at hperm
    exact hperm.eq_nil
  · have htimely := (hall _ (mem_exchanges hm)).2
    simp only [timely, List.all_eq_true] at htimely
    have hx := htimely x hx
    rw [hf] at hx
    simpa using hx

structure Competing (net : NodeId → Setup) (S : State) (g q : String) : Prop where
  once : Settled net S g q → (applied q S.history).Perm (announced g q S.history)
  result : ∀ field, S.hub.field (Key.delay q) field = Hub.settle field (applied q S.history)
  sole : Settled net S g q → ∀ u n b consumer services stop field,
    S.has u n (.loop (.dispatch b consumer services stop)) →
      (∀ d ∈ Hub.deliveredTo g q (deeds S.history), ∀ v,
        d.envelope.change = some (field, v) → d ∈ given (traceOf u S.history)) →
          S.hub.field (Key.delay q) field = Hub.settle field (announced g q S.history)
  routes : Settled net S g q → ∀ u n b consumer services stop,
    S.has u n (.loop (.dispatch b consumer services stop)) →
      ∀ d ∈ given (traceOf u S.history), ∀ r, duty (net n).shared b d = some r →
        ∃ k, Routes (net n).shared b S.history u d k
  inOrder : ∀ u n b consumer services stop,
    S.has u n (.loop (.dispatch b consumer services stop)) → ∀ d d' before mid after,
      given (traceOf u S.history) = before ++ d :: mid ++ d' :: after → ∀ k k',
        Routes (net n).shared b S.history u d k → Routes (net n).shared b S.history u d' k' → k < k'
  /-- A tombstone that deletes what was written, before any clock reached the fire time, prevents the
  execution. -/
  cancelled : ∀ i k w b t, i < k →
    At S.history k (.served w (.broker b (.hashDelete (Key.delay q) (Decimal.ofInt64 t))) (.ok ())) →
      (∀ l v now, l < k → At S.history l (.served v .reading now) → now < t) →
        ∀ x u j payload, ¬ Consumes S.history x u i j q t payload

theorem Reachable.competing (reach : Reachable net S) (g q : String) : Competing net S g q where
  once settled := settled.perm_announced reach
  result field := by rw [reach.field_eq_replay, Hub.replay_eq_settle, applied]
  sole settled u n b consumer services stop field has handed := by
    rw [reach.field_eq_replay, Hub.replay_eq_settle]
    show Hub.settle field (applied q S.history) = _
    unfold Hub.settle
    rw [settled.sole reach has handed]
  routes settled u n b consumer services stop has d hd r hduty :=
    exists_routes (settled.routed u n b consumer services stop has) hd hduty
  inOrder u n b consumer services stop has d d' before mid after hgiven k k' h h' :=
    reach.routes_in_order has hgiven h h'
  cancelled i k w b t hik hk early x u j payload consumes := by
    obtain ⟨b', hj⟩ := consumes.claim
    rcases Nat.lt_trichotomy j k with hlt | rfl | hlt
    · obtain ⟨l, v, now, hlj, hread, hnow⟩ := reach.reading_of_seized consumes.claim
      exact absurd (early l v now (Nat.lt_trans hlj hlt) hread) (Int64.not_lt.mpr hnow)
    · cases hk.inj hj
    · have hdelete := consumes.latest k _ hik hlt hk
      simp [Event.write, deal, Hub.Deed.write, Hub.Deed.change] at hdelete

/-- One node is handed a deferred call and another its tombstone, and the tombstone is faster. -/
def overtaken : State :=
  (State.start ⟨⟨0⟩, 0⟩).play (fun _ => .echo "rpc") <|
    .begin 0 .spawn :: turns 0 0 12 ++ .begin 1 .spawn :: turns 13 0 10 ++
      .begin 0 (.scheduleAt "s" ⟨5⟩ [1]) :: turns 24 0 2 ++ turns 12 1 4 ++
      .begin 0 (.cancel "s" ⟨5⟩) :: turns 30 0 2 ++ turns 23 1 6 ++ turns 12 1 2 ++ turns 12 0 5

theorem reachable_overtaken : Reachable (fun _ => .echo "rpc") overtaken := (Reachable.start _).play _

theorem settled_overtaken : Settled (fun _ => .echo "rpc") overtaken "rpc" "s" :=
  .of_check reachable_overtaken (by decide +kernel)

theorem competing_overtaken :
    Settled (fun _ => .echo "rpc") overtaken "rpc" "s" ∧
      Competing (fun _ => .echo "rpc") overtaken "rpc" "s" :=
  ⟨settled_overtaken, reachable_overtaken.competing "rpc" "s"⟩

/-- Between two nodes the order of the queue is not kept. -/
theorem not_in_queue_order :
    ¬ ∀ (net : NodeId → Setup) (S : State) (g q : String), Reachable net S → Settled net S g q →
      ∀ field, S.hub.field (Key.delay q) field = Hub.settle field (announced g q S.history) := by
  intro hall
  have hfield := hall _ _ _ _ reachable_overtaken settled_overtaken "5"
  have hheld : overtaken.hub.field (Key.delay "s") "5" = some [1] := by decide +kernel
  have hasked : Hub.settle "5" (announced "rpc" "s" overtaken.history) = none := by decide +kernel
  rw [hheld, hasked] at hfield
  cases hfield

end BrokeredCalls.Network
