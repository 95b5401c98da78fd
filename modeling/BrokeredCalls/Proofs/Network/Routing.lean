import BrokeredCalls.Proofs.Network.Deliveries

/-!
What dispatch loops do with what they are given. An immediate call that is started was given to the
loop that starts it, and of the loops of one group no two start the same.
-/

namespace BrokeredCalls.Network

open Node (Effect Execution Shared)

variable {net : NodeId → Setup} {S : State} {s : Shared} {b : BrokerId} {consumer : String}
  {services : List String} {stop : SignalId} {tr : Trail}

theorem owes_of_conforms
    (conforms : Conduct.Conforms
      ⟨Credible, rule s (.loop (.dispatch b consumer services stop))⟩ tr) :
    ∃ rest, Owes s b tr rest := by
  induction tr with
  | nil => exact ⟨[], rfl⟩
  | cons x tr ih =>
    obtain ⟨r, a⟩ := x
    obtain ⟨hrule, -, hconforms⟩ := conforms
    obtain ⟨rest, o⟩ := ih hconforms
    change Dispatching s b tr r at hrule
    cases hrule with
    | harmless h => exact ⟨rest, o.harmless a h⟩
    | route rest' hduty next => exact ⟨rest', Owes.routed next a hduty⟩
    | track t payload written => exact ⟨rest, o⟩
    | read consumer' services' count block stop' idle =>
      have o' : Owes s b tr [] := idle.trans (List.append_nil _).symm
      cases a with
      | raised => exact ⟨[], o'⟩
      | abandoned => exact ⟨[], o'⟩
      | value v =>
        cases v with
        | error e => exact ⟨[], o'⟩
        | ok ds => exact ⟨_, o'.read ds⟩

theorem mem_routed {r : Effect} {a : r.Answer} (h : (⟨r, a⟩ : Exchange Node.interface) ∈ tr)
    (hd : isDuty r = true) : r ∈ routed tr := by
  induction tr with
  | nil => cases h
  | cons x tr ih =>
    unfold routed
    rcases List.mem_cons.mp h with rfl | hold
    · rw [if_pos hd]
      exact List.mem_append_right _ List.mem_cons_self
    · split
      · exact List.mem_append_left _ (ih hold)
      · exact ih hold

theorem given_of_routed
    (conforms : Conduct.Conforms
      ⟨Credible, rule s (.loop (.dispatch b consumer services stop))⟩ tr) {r : Effect}
    (h : r ∈ routed tr) : ∃ d ∈ given tr, duty s b d = some r := by
  obtain ⟨rest, o⟩ := owes_of_conforms conforms
  have hmem : r ∈ duties s b tr := o ▸ List.mem_append_left rest h
  exact List.mem_filterMap.mp hmem

theorem duty_start {d : Delivery} {e : Execution} (h : duty s b d = some (.start e)) :
    e = ⟨b, d.envelope.service, d.envelope.payload, Key.reply d.envelope.service d.id,
      s.config.replyTtl⟩ := by
  unfold duty at h
  cases hp : d.envelope.isPlaceholder with
  | true => simp [hp] at h
  | false =>
    cases ht : d.envelope.fireAt with
    | some t => simp [hp, ht] at h
    | none =>
      simp only [hp, ht] at h
      cases h
      rfl

theorem service_of_appended {q id : String} {e : Envelope} {ds : List Hub.Deed}
    (h : (id, e) ∈ Hub.appendedTo q ds) : e.service = q := by
  induction ds with
  | nil => cases h
  | cons d ds ih =>
    rcases List.mem_append.mp h with hold | hnew
    · exact ih hold
    · unfold Hub.Deed.appended at hnew
      split at hnew
      · split at hnew
        · cases List.mem_singleton.mp hnew
          rfl
        · cases hnew
      · split at hnew
        · cases List.mem_singleton.mp hnew
          rfl
        · cases hnew
      · cases hnew

theorem Reachable.entry_of_given (reach : Reachable net S) {u : TaskId} {n : NodeId}
    (has : S.has u n (.loop (.dispatch b consumer services stop))) {d : Delivery}
    (hd : d ∈ given (traceOf u S.history)) :
    ∃ e : Hub.Entry, d = e.delivery d.queue ∧ d.envelope.service = d.queue ∧
      e.noted ∈ Hub.appendedTo d.queue (deeds S.history) := by
  obtain ⟨e, hde, he⟩ := reach.entry_of_delivered (reach.mem_deliveredTo has hd)
  have hservice : e.envelope.service = d.queue := service_of_appended he
  refine ⟨e, hde, ?_, he⟩
  rw [hde]
  exact hservice

theorem Reachable.delivery_unique (reach : Reachable net S) {u u' : TaskId} {n n' : NodeId}
    {b b' : BrokerId} {consumer consumer' : String} {services services' : List String}
    {stop stop' : SignalId}
    (has : S.has u n (.loop (.dispatch b consumer services stop)))
    (has' : S.has u' n' (.loop (.dispatch b' consumer' services' stop'))) {d d' : Delivery}
    (hd : d ∈ given (traceOf u S.history)) (hd' : d' ∈ given (traceOf u' S.history))
    (key : Key.reply d.envelope.service d.id = Key.reply d'.envelope.service d'.id) : d = d' := by
  obtain ⟨e, hde, hq, he⟩ := reach.entry_of_given has hd
  obtain ⟨e', hde', hq', he'⟩ := reach.entry_of_given has' hd'
  have hid : d.id = e.id.text := congrArg Delivery.id hde
  have hid' : d'.id = e'.id.text := congrArg Delivery.id hde'
  rw [hid, hid', hq, hq'] at key
  obtain ⟨hqueue, hids⟩ := Key.reply_injective key
  rw [← hqueue] at he' hde'
  have henv : e.envelope = e'.envelope := by
    refine reach.appended_unique he ?_
    rw [hids]
    exact he'
  have heq : e = e' := by
    cases e
    cases e'
    cases hids
    cases henv
    rfl
  rw [hde, hde', heq]

/-- Event `k` is where the loop `u` routed an entry: until then it had routed what it was given before
that entry. -/
def Routes (s : Shared) (b : BrokerId) (H : List Event) (u : TaskId) (d : Delivery) (k : Nat) :
    Prop :=
  ∃ r a before after, At H k (.served u r a) ∧ duty s b d = some r ∧
    given (traceOf u H) = before ++ d :: after ∧
      routed (traceOf u (past H k)) = before.filterMap (duty s b)

theorem exists_at_of_routed {u : TaskId} {H : List Event} {r : Effect} {older newer : List Effect}
    (h : routed (traceOf u H) = older ++ r :: newer) :
    ∃ k a, At H k (.served u r a) ∧ routed (traceOf u (past H k)) = older := by
  induction H generalizing newer with
  | nil => simp [traceOf, routed] at h
  | cons e H ih =>
    have old {newer : List Effect} (hold : routed (traceOf u H) = older ++ r :: newer) :
        ∃ k a, At (e :: H) k (.served u r a) ∧ routed (traceOf u (past (e :: H) k)) = older := by
      obtain ⟨k, a, hk, hpast⟩ := ih hold
      refine ⟨k, a, hk.cons e, ?_⟩
      rw [past_cons (Nat.le_of_lt hk.lt), hpast]
    cases e with
    | began n o => exact old h
    | served t r₀ a₀ =>
      by_cases ht : t = u
      · subst ht
        rw [traceOf_self, routed] at h
        split at h
        · rcases List.eq_nil_or_concat newer with rfl | ⟨front, last, rfl⟩
          · obtain ⟨hpast, heq⟩ := List.append_inj' h rfl
            cases heq
            refine ⟨H.length, a₀, At.head _, ?_⟩
            rw [past_cons (Nat.le_refl _), past_length, hpast]
          · rw [List.concat_eq_append, ← List.cons_append, ← List.append_assoc] at h
            exact old (List.append_inj' h rfl).1
        · exact old h
      · rw [traceOf_ne ht] at h
        exact old h

theorem routed_append (newer older : Trail) :
    routed (newer ++ older) = routed older ++ routed newer := by
  induction newer with
  | nil => exact (List.append_nil _).symm
  | cons x newer ih =>
    rw [List.cons_append, routed, routed, ih]
    split
    · exact List.append_assoc _ _ _
    · rfl

theorem prefix_routed {u : TaskId} {H : List Event} {k k' : Nat} (h : k ≤ k') :
    routed (traceOf u (past H k)) <+: routed (traceOf u (past H k')) := by
  have hpast : past H k <:+ past H k' := List.drop_suffix_drop_left H (Nat.sub_le_sub_left h _)
  obtain ⟨newer, hnewer⟩ := hpast
  rw [← hnewer, traceOf_append, routed_append]
  exact List.prefix_append _ _

theorem Reachable.routes_in_order (reach : Reachable net S) {u : TaskId} {n : NodeId}
    (has : S.has u n (.loop (.dispatch b consumer services stop))) {d d' : Delivery}
    {before mid after : List Delivery}
    (hgiven : given (traceOf u S.history) = before ++ d :: mid ++ d' :: after) {k k' : Nat}
    (h : Routes (net n).shared b S.history u d k) (h' : Routes (net n).shared b S.history u d' k') :
    k < k' := by
  obtain ⟨r, a, front, back, hk, hduty, hsplit, hrouted⟩ := h
  obtain ⟨r', a', front', back', hk', hduty', hsplit', hrouted'⟩ := h'
  have hnodup := reach.nodup_given has
  have split_unique {d : Delivery} {x y x' y' : List Delivery}
      (hx : given (traceOf u S.history) = x ++ d :: y)
      (hx' : given (traceOf u S.history) = x' ++ d :: y') : x = x' := by
    have last_not_mem {x y : List Delivery} (hx : given (traceOf u S.history) = x ++ d :: y) :
        d ∉ y := by
      rw [hx] at hnodup
      exact (List.nodup_cons.mp (List.nodup_append.mp hnodup).2.1).1
    exact (append_cons_inj_of_not_mem (last_not_mem hx) (last_not_mem hx') (hx.symm.trans hx')).1
  have hfirst : given (traceOf u S.history) = before ++ d :: (mid ++ d' :: after) := by
    rw [hgiven, List.append_assoc, List.cons_append]
  obtain rfl : before = front := split_unique hfirst hsplit
  obtain rfl : before ++ d :: mid = front' := split_unique hgiven hsplit'
  by_contra hle
  have hlength := (prefix_routed (u := u) (H := S.history) (Nat.not_lt.mp hle)).length_le
  rw [hrouted, hrouted', List.filterMap_append, List.filterMap_cons_some hduty, List.length_append,
    List.length_cons] at hlength
  omega

theorem exists_routes {u : TaskId} {H : List Event} {d : Delivery} {r : Effect}
    (done : duties s b (traceOf u H) = routed (traceOf u H)) (hd : d ∈ given (traceOf u H))
    (hduty : duty s b d = some r) : ∃ k, Routes s b H u d k := by
  obtain ⟨before, after, hsplit⟩ := List.append_of_mem hd
  have hrouted : routed (traceOf u H) =
      before.filterMap (duty s b) ++ r :: after.filterMap (duty s b) := by
    rw [← done, duties, hsplit, List.filterMap_append, List.filterMap_cons_some hduty]
  obtain ⟨k, a, hk, hpast⟩ := exists_at_of_routed hrouted
  exact ⟨k, r, a, before, after, hk, hduty, hsplit, hpast⟩

end BrokeredCalls.Network
