import BrokeredCalls.Proofs.Hub.Delivery
import BrokeredCalls.Proofs.Network.Loops
import BrokeredCalls.Proofs.Text.Keys
import Mathlib.Data.List.Nodup
import Mathlib.Data.List.Pairwise

/-!
What the tasks of a network are given between them. All exchanges of a history are those of its tasks,
each once, so what a group is delivered is shared out among the tasks that read for it.
-/

namespace BrokeredCalls.Network

open Node (Effect Execution Shared)

theorem perm_flatMap_cons {α β : Type} [DecidableEq α] {us : List α} {v : α} (hv : v ∈ us)
    (nodup : us.Nodup) (f : α → List β) (x : β) :
    (us.flatMap fun u => if v = u then x :: f u else f u).Perm (x :: us.flatMap f) := by
  induction us with
  | nil => cases hv
  | cons u us ih =>
    obtain ⟨hu, hus⟩ := List.nodup_cons.mp nodup
    rw [List.flatMap_cons, List.flatMap_cons]
    by_cases heq : v = u
    · subst heq
      have hrest : (us.flatMap fun u => if v = u then x :: f u else f u) = us.flatMap f := by
        refine congrArg List.flatten (List.map_congr_left fun w hw => if_neg ?_)
        rintro rfl
        exact hu hw
      rw [if_pos rfl, hrest, List.cons_append]
    · have hmem : v ∈ us := (List.mem_cons.mp hv).resolve_left heq
      rw [if_neg heq]
      exact ((ih hmem hus).append_left (f u)).trans List.perm_middle

theorem perm_exchanges {us : List TaskId} (nodup : us.Nodup) {H : List Event}
    (covers : ∀ t r a, .served t r a ∈ H → t ∈ us) :
    (us.flatMap fun u => traceOf u H).Perm (exchanges H) := by
  induction H with
  | nil => simp [traceOf, exchanges]
  | cons e H ih =>
    have hH := ih fun t r a h => covers t r a (List.mem_cons_of_mem _ h)
    cases e with
    | began n o => exact hH
    | served t r a =>
      have ht : t ∈ us := covers t r a List.mem_cons_self
      exact (perm_flatMap_cons ht nodup (fun u => traceOf u H) ⟨r, a⟩).trans (hH.cons _)

def tasksOf : List Event → List TaskId
  | [] => []
  | .served t _ _ :: H => if t ∈ tasksOf H then tasksOf H else t :: tasksOf H
  | .began .. :: H => tasksOf H

theorem nodup_tasksOf (H : List Event) : (tasksOf H).Nodup := by
  induction H with
  | nil => exact .nil
  | cons e H ih =>
    cases e with
    | began n o => exact ih
    | served t r a =>
      unfold tasksOf
      split
      · exact ih
      · next hnot => exact List.nodup_cons.mpr ⟨hnot, ih⟩

theorem mem_tasksOf {H : List Event} {t : TaskId} {r : Effect} {a : r.Answer}
    (h : .served t r a ∈ H) : t ∈ tasksOf H := by
  induction H with
  | nil => cases h
  | cons e H ih =>
    rcases List.mem_cons.mp h with rfl | hold
    · unfold tasksOf
      split
      · assumption
      · exact List.mem_cons_self
    · cases e with
      | began n o => exact ih hold
      | served u s b =>
        unfold tasksOf
        split
        · exact ih hold
        · exact List.mem_cons_of_mem _ (ih hold)

theorem perm_tasksOf (H : List Event) :
    ((tasksOf H).flatMap fun u => traceOf u H).Perm (exchanges H) :=
  perm_exchanges (nodup_tasksOf H) fun _ _ _ h => mem_tasksOf h

def gave (g q : String) (x : Exchange Node.interface) : List Delivery :=
  (deal x).elim [] (Hub.Deed.delivered g q)

theorem mem_gave {g q : String} {x : Exchange Node.interface} {d : Delivery} (h : d ∈ gave g q x) :
    ∃ consumer services count block ds,
      deal x = some ⟨.call (.readGroup g consumer services count block), .ok ds⟩ ∧
        d ∈ ds ∧ d.queue = q := by
  unfold gave at h
  cases hx : deal x with
  | none => simp [hx] at h
  | some deed =>
    rw [hx] at h
    change d ∈ deed.delivered g q at h
    unfold Hub.Deed.delivered at h
    split at h
    · split at h
      · next hg =>
        subst hg
        obtain ⟨hd, hq⟩ := List.mem_filter.mp h
        exact ⟨_, _, _, _, _, rfl, hd, by simpa using hq⟩
      · cases h
    · cases h

theorem perm_deliveredTo (g q : String) (H : List Event) :
    (Hub.deliveredTo g q (deeds H)).Perm ((exchanges H).flatMap (gave g q)) := by
  unfold deeds
  induction exchanges H with
  | nil => exact .nil
  | cons x tr ih =>
    rw [List.flatMap_cons]
    cases hx : deal x with
    | none =>
      rw [List.filterMap_cons_none hx]
      simpa [gave, hx] using ih
    | some d =>
      rw [List.filterMap_cons_some hx, Hub.deliveredTo]
      have hgave : gave g q x = d.delivered g q := by simp [gave, hx]
      rw [hgave]
      exact List.perm_append_comm.trans (ih.append_left _)

theorem perm_shares (g q : String) (H : List Event) :
    (Hub.deliveredTo g q (deeds H)).Perm
      ((tasksOf H).flatMap fun u => (traceOf u H).flatMap (gave g q)) := by
  refine (perm_deliveredTo g q H).trans ?_
  rw [← List.flatMap_assoc]
  exact ((perm_tasksOf H).flatMap_right _).symm

theorem deal_call {x : Exchange Node.interface} {d : Hub.Deed} (h : deal x = some d) :
    ∃ c r, d = ⟨.call c, r⟩ := by
  unfold deal at h
  split at h
  · cases h
    exact ⟨_, _, rfl⟩
  · cases h
    exact ⟨_, _, rfl⟩
  · cases h

variable {net : NodeId → Setup} {S : State}

theorem Reachable.booked (reach : Reachable net S) (g q : String) :
    ∃ ts earlier since delivered, Hub.Run .empty ts S.hub ∧ Hub.deeds ts = deeds S.history ∧
      Hub.Booked g q ts S.hub earlier since delivered := by
  obtain ⟨ts, run, heq⟩ := reach.run
  have kept : ∀ t ∈ ts, t.action ≠ .delete q := by
    intro t ht hdel
    have hmem : t.deed ∈ deeds S.history := heq ▸ List.mem_map_of_mem ht
    obtain ⟨x, -, hx⟩ := List.mem_filterMap.mp hmem
    obtain ⟨c, r, hd⟩ := deal_call hx
    have hact : t.action = .call c := congrArg Sigma.fst hd
    rw [hact] at hdel
    cases hdel
  obtain ⟨earlier, since, delivered, b⟩ := run.booked rfl kept g
  exact ⟨ts, earlier, since, delivered, run, heq, b⟩

theorem Reachable.entry_of_delivered (reach : Reachable net S) {g q : String} {d : Delivery}
    (h : d ∈ Hub.deliveredTo g q (deeds S.history)) :
    ∃ e : Hub.Entry, d = e.delivery q ∧ e.noted ∈ Hub.appendedTo q (deeds S.history) := by
  obtain ⟨ts, earlier, since, delivered, -, heq, b⟩ := reach.booked g q
  rw [← heq] at h ⊢
  rw [b.delivered] at h
  obtain ⟨e, he, rfl⟩ := List.mem_map.mp h
  refine ⟨e, rfl, ?_⟩
  have hsince : e ∈ since := by
    rw [b.account.partition.mem_iff]
    simp [he]
  rw [b.appended]
  exact List.mem_map_of_mem (List.mem_append_right _ hsince)

theorem Reachable.appended_unique (reach : Reachable net S) {q : String} {id : String}
    {e e' : Envelope} (h : (id, e) ∈ Hub.appendedTo q (deeds S.history))
    (h' : (id, e') ∈ Hub.appendedTo q (deeds S.history)) : e = e' := by
  obtain ⟨ts, earlier, since, delivered, -, heq, b⟩ := reach.booked "" q
  rw [← heq, b.appended] at h h'
  obtain ⟨a, ha, hae⟩ := List.mem_map.mp h
  obtain ⟨a', ha', hae'⟩ := List.mem_map.mp h'
  cases hae
  have hid : a.id = a'.id := EntryId.text_injective (congrArg Prod.fst hae').symm
  have heq : a = a' := b.account.ascending.eq_of_id ha ha' hid
  rw [heq]
  exact congrArg Prod.snd hae'

theorem Reachable.nodup_deliveredTo (reach : Reachable net S) (g q : String) :
    (Hub.deliveredTo g q (deeds S.history)).Nodup := by
  obtain ⟨ts, earlier, since, delivered, -, heq, b⟩ := reach.booked g q
  rw [← heq, b.delivered]
  exact b.account.inOrder.nodup_map fun a a' h => EntryId.text_injective (congrArg Delivery.id h)

theorem rule_read {s : Shared} {j : Job} {tr : Trail} {r : Effect} {a : r.Answer}
    (h : rule s j tr r) {g consumer : String} {services : List String} {count : Nat}
    {block : Duration} {v : Except Error (List Delivery)}
    (hr : deal ⟨r, a⟩ = some ⟨.call (.readGroup g consumer services count block), v⟩) :
    (∃ b consumer services stop, j = .loop (.dispatch b consumer services stop)) ∧
      g = s.config.group ∧ ∃ b stop,
        r = .readUnlessStopped b g consumer services count block stop := by
  rcases rule_cases h with hh | h
  · cases r with
    | broker b c =>
      cases hr
      cases hh
    | readUnlessStopped => cases hh
    | _ => cases hr
  · cases h with
    | read =>
      cases a with
      | value v' =>
        cases hr
        exact ⟨⟨_, _, _, _, rfl⟩, rfl, _, _, rfl⟩
      | _ => cases hr
    | route duty =>
      cases r with
      | broker b c =>
        cases hr
        cases duty
      | readUnlessStopped => cases duty
      | _ => cases hr
    | _ => cases hr

section Given

variable {s : Shared} {b : BrokerId} {consumer : String} {services : List String} {stop : SignalId}
  {tr : Trail}

theorem given_cons {x : Exchange Node.interface}
    (hrule : rule s (.loop (.dispatch b consumer services stop)) tr x.1) (q : String) :
    (given (x :: tr)).filter (·.queue = q) =
      (given tr).filter (·.queue = q) ++ gave s.config.group q x := by
  obtain ⟨r, a⟩ := x
  have quiet (hgave : gave s.config.group q ⟨r, a⟩ = []) (hgiven : given (⟨r, a⟩ :: tr) = given tr) :
      (given (⟨r, a⟩ :: tr)).filter (·.queue = q) =
        (given tr).filter (·.queue = q) ++ gave s.config.group q ⟨r, a⟩ := by
    rw [hgave, hgiven, List.append_nil]
  cases r with
  | readUnlessStopped b' g consumer' services' count block stop' =>
    cases a with
    | raised => exact quiet rfl rfl
    | abandoned => exact quiet rfl rfl
    | value v =>
      have hdeal : deal ⟨.readUnlessStopped b' g consumer' services' count block stop', .value v⟩ =
          some ⟨.call (.readGroup g consumer' services' count block), v⟩ := rfl
      obtain ⟨-, rfl, -⟩ := rule_read hrule hdeal
      cases v with
      | error e => exact quiet rfl rfl
      | ok ds =>
        have hgave : gave s.config.group q ⟨.readUnlessStopped b' s.config.group consumer'
            services' count block stop', .value (.ok ds)⟩ = ds.filter (·.queue = q) := by
          simp [gave, deal, Hub.Deed.delivered]
        rw [hgave, given, List.filter_append]
  | broker b' c =>
    cases c with
    | readGroup g consumer' services' count block =>
      have hdeal : deal ⟨.broker b' (.readGroup g consumer' services' count block), a⟩ =
          some ⟨.call (.readGroup g consumer' services' count block), a⟩ := rfl
      obtain ⟨-, -, _, _, heq⟩ := rule_read hrule hdeal
      cases heq
    | _ => exact quiet rfl rfl
  | _ => exact quiet rfl rfl

theorem perm_given
    (conforms : Conduct.Conforms
      ⟨Credible, rule s (.loop (.dispatch b consumer services stop))⟩ tr) (q : String) :
    (tr.flatMap (gave s.config.group q)).Perm ((given tr).filter (·.queue = q)) := by
  induction tr with
  | nil => exact .nil
  | cons x tr ih =>
    obtain ⟨hrule, -, hconforms⟩ := conforms
    change rule s (.loop (.dispatch b consumer services stop)) tr x.1 at hrule
    rw [List.flatMap_cons, given_cons hrule]
    exact List.perm_append_comm.trans ((ih hconforms).append_right _)

theorem deliveredTo_cons (g q : String) (t : TaskId) (r : Effect) (a : r.Answer) (H : List Event) :
    Hub.deliveredTo g q (deeds (.served t r a :: H)) =
      Hub.deliveredTo g q (deeds H) ++ gave g q ⟨r, a⟩ := by
  unfold gave
  cases hd : deal ⟨r, a⟩ with
  | none =>
    rw [deeds_of_none hd, Option.elim_none, List.append_nil]
  | some d =>
    rw [deeds_of_some hd, Hub.deliveredTo, Option.elim_some]

theorem sublist_deliveredTo {u : TaskId} {H : List Event}
    (conforms : Conduct.Conforms
      ⟨Credible, rule s (.loop (.dispatch b consumer services stop))⟩ (traceOf u H)) (q : String) :
    ((given (traceOf u H)).filter (·.queue = q)).Sublist
      (Hub.deliveredTo s.config.group q (deeds H)) := by
  induction H with
  | nil => exact .slnil
  | cons e H ih =>
    cases e with
    | began n o => exact ih conforms
    | served t r a =>
      rw [deliveredTo_cons]
      by_cases ht : t = u
      · subst ht
        rw [traceOf_self] at conforms ⊢
        obtain ⟨hrule, -, hconforms⟩ := conforms
        change rule s (.loop (.dispatch b consumer services stop)) (traceOf t H) r at hrule
        rw [given_cons hrule]
        exact (ih hconforms).append_right _
      · rw [traceOf_ne ht] at conforms ⊢
        exact (ih conforms).trans (List.sublist_append_left _ _)

end Given

theorem gave_eq_nil {s : Shared} {j : Job} {tr : Trail}
    (conforms : Conduct.Conforms ⟨Credible, rule s j⟩ tr) {g q : String}
    (h : g ≠ s.config.group ∨
      ∀ b consumer services stop, j ≠ .loop (.dispatch b consumer services stop)) :
    tr.flatMap (gave g q) = [] := by
  induction tr with
  | nil => rfl
  | cons x tr ih =>
    obtain ⟨r, a⟩ := x
    obtain ⟨hrule, -, hconforms⟩ := conforms
    change rule s j tr r at hrule
    rw [List.flatMap_cons, ih hconforms, List.append_nil, List.eq_nil_iff_forall_not_mem]
    intro d hd
    obtain ⟨_, _, _, _, _, hdeal, -⟩ := mem_gave hd
    obtain ⟨⟨_, _, _, _, hj⟩, hg, -⟩ := rule_read hrule hdeal
    rcases h with h | h
    · exact h hg
    · exact h _ _ _ _ hj

theorem Reachable.conforms (reach : Reachable net S) {t : TaskId} {n : NodeId} {j : Job}
    (has : S.has t n j) :
    Conduct.Conforms ⟨Credible, rule (net n).shared j⟩ (traceOf t S.history) := by
  obtain ⟨w, here⟩ := has
  exact ((discipline net).kept reach here).2

section Shares

variable {u u' : TaskId} {n n' : NodeId} {b b' : BrokerId} {consumer consumer' : String}
  {services services' : List String} {stop stop' : SignalId}

theorem mem_tasksOf_of_mem_gave {g q : String} {d : Delivery}
    (h : d ∈ (traceOf u S.history).flatMap (gave g q)) : u ∈ tasksOf S.history := by
  obtain ⟨⟨r, a⟩, hx, -⟩ := List.mem_flatMap.mp h
  exact mem_tasksOf (mem_traceOf.mp hx)

theorem Reachable.nodup_shares (reach : Reachable net S) (g q : String) :
    ((tasksOf S.history).flatMap fun u => (traceOf u S.history).flatMap (gave g q)).Nodup :=
  (perm_shares g q S.history).nodup_iff.mp (reach.nodup_deliveredTo g q)

theorem Reachable.mem_share (reach : Reachable net S)
    (has : S.has u n (.loop (.dispatch b consumer services stop))) {d : Delivery}
    (hd : d ∈ given (traceOf u S.history)) :
    d ∈ (traceOf u S.history).flatMap (gave (net n).shared.config.group d.queue) := by
  rw [(perm_given (reach.conforms has) d.queue).mem_iff, List.mem_filter]
  exact ⟨hd, by simp⟩

theorem Reachable.mem_deliveredTo (reach : Reachable net S)
    (has : S.has u n (.loop (.dispatch b consumer services stop))) {d : Delivery}
    (hd : d ∈ given (traceOf u S.history)) :
    d ∈ Hub.deliveredTo (net n).shared.config.group d.queue (deeds S.history) := by
  have hshare := reach.mem_share has hd
  rw [(perm_shares _ _ _).mem_iff]
  exact List.mem_flatMap.mpr ⟨u, mem_tasksOf_of_mem_gave hshare, hshare⟩

theorem Reachable.nodup_given (reach : Reachable net S)
    (has : S.has u n (.loop (.dispatch b consumer services stop))) :
    (given (traceOf u S.history)).Nodup := by
  rw [List.nodup_iff_count]
  intro d
  by_cases hd : d ∈ given (traceOf u S.history)
  · have hshare := reach.mem_share has hd
    have hall := reach.nodup_shares (net n).shared.config.group d.queue
    have hone := (List.nodup_flatMap.mp hall).1 u (mem_tasksOf_of_mem_gave hshare)
    rw [(perm_given (reach.conforms has) d.queue).nodup_iff, List.nodup_iff_count] at hone
    have hcount := hone d
    rwa [List.count_filter (by simp)] at hcount
  · rw [List.count_eq_zero_of_not_mem hd]
    exact Nat.zero_le 1

theorem Reachable.reader_unique (reach : Reachable net S)
    (has : S.has u n (.loop (.dispatch b consumer services stop)))
    (has' : S.has u' n' (.loop (.dispatch b' consumer' services' stop')))
    (group : (net n).shared.config.group = (net n').shared.config.group) {d : Delivery}
    (hd : d ∈ given (traceOf u S.history)) (hd' : d ∈ given (traceOf u' S.history)) : u = u' := by
  have hshare := reach.mem_share has hd
  have hshare' := reach.mem_share has' hd'
  rw [← group] at hshare'
  have hall := reach.nodup_shares (net n).shared.config.group d.queue
  by_contra hne
  have hsymm : Std.Symm (Function.onFun List.Disjoint fun v =>
      (traceOf v S.history).flatMap (gave (net n).shared.config.group d.queue)) :=
    ⟨fun _ _ h _ hx hy => h hy hx⟩
  have hdisjoint := (List.nodup_flatMap.mp hall).2.forall
    (mem_tasksOf_of_mem_gave hshare) (mem_tasksOf_of_mem_gave hshare') hne
  exact hdisjoint hshare hshare'

end Shares

end BrokeredCalls.Network
