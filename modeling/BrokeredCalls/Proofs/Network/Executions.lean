import BrokeredCalls.Proofs.Network.Routing

/-!
Executions: where they come from, that an entry is executed once for each group that reads it, and
that an execution runs the handler of its node once, on its payload.
-/

namespace BrokeredCalls.Network

open Node (Effect Execution Shared)

variable {net : NodeId → Setup} {S : State} {x x' : TaskId} {m m' : NodeId} {e : Execution}

structure Routed (net : NodeId → Setup) (S : State) (x : TaskId) (m : NodeId) (e : Execution)
    (u : TaskId) (b : BrokerId) (d : Delivery) : Prop where
  task : S.has x m (.execution e)
  loop : ∃ consumer services stop, S.has u m (.loop (.dispatch b consumer services stop))
  started : At S.history x.event (.served u (.start e) ())
  handed : d ∈ given (traceOf u S.history)
  duty : duty (net m).shared b d = some (.start e)

structure Claimed (net : NodeId → Setup) (S : State) (x : TaskId) (m : NodeId) (e : Execution)
    (u : TaskId) : Prop where
  task : S.has x m (.execution e)
  loop : ∃ stop last, S.has u m (.loop (.fire stop last))
  started : At S.history x.event (.served u (.start e) ())
  rule : Firing (net m).shared (traceOf u (past S.history x.event)) (.start e)

theorem execution_of_jobsOf {r : Effect} {i : Nat} (h : (jobsOf r)[i]? = some (.execution e)) :
    r = .start e ∧ i = 0 := by
  have hmem := List.mem_of_getElem? h
  cases r with
  | start e' =>
    cases List.mem_singleton.mp hmem
    refine ⟨rfl, ?_⟩
    have hi := (List.getElem?_eq_some_iff.mp h).1
    exact Nat.lt_one_iff.mp hi
  | launch loops =>
    obtain ⟨l, -, hl⟩ := List.mem_map.mp hmem
    cases hl
  | _ => cases hmem

theorem not_operation_of_jobsOf {r : Effect} {i : Nat} {o : Operation} :
    (jobsOf r)[i]? ≠ some (.operation o) := by
  intro h
  have hmem := List.mem_of_getElem? h
  cases r with
  | start e => cases List.mem_singleton.mp hmem
  | launch loops =>
    obtain ⟨l, -, hl⟩ := List.mem_map.mp hmem
    cases hl
  | _ => cases hmem

theorem Reachable.began (reach : Reachable net S) {t : TaskId} {o : Operation}
    (has : S.has t m (.operation o)) : At S.history t.event (.began m o) ∧ t.index = 0 := by
  cases reach.founded.origin t m _ has with
  | user _ began first => exact ⟨began, first⟩
  | child u j r a parent served job => exact absurd job not_operation_of_jobsOf

theorem loop_of_start {s : Shared} {j : Job} {tr : Trail} (h : rule s j tr (.start e)) :
    (∃ b consumer services stop, j = .loop (.dispatch b consumer services stop)) ∨
      ∃ stop last, j = .loop (.fire stop last) ∧ Firing s tr (.start e) := by
  rcases rule_cases h with hh | h
  · cases hh
  · cases h with
    | route => exact .inl ⟨_, _, _, _, rfl⟩
    | start e rule => exact .inr ⟨_, _, rfl, rule⟩

theorem Reachable.execution (reach : Reachable net S) (has : S.has x m (.execution e)) :
    x.index = 0 ∧ ((∃ u b d, Routed net S x m e u b d) ∨ ∃ u, Claimed net S x m e u) := by
  cases reach.founded.origin x m _ has with
  | child u j r a parent served job =>
    obtain ⟨rfl, hindex⟩ := execution_of_jobsOf job
    refine ⟨hindex, ?_⟩
    have hrule := (discipline net).rule_of_served reach served parent
    rcases loop_of_start hrule with ⟨b, consumer, services, stop, rfl⟩ | ⟨stop, last, rfl, hfire⟩
    · have hmem : Effect.start e ∈ routed (traceOf u S.history) :=
        mem_routed (mem_traceOf.mpr served.mem) rfl
      obtain ⟨d, hd, hduty⟩ := given_of_routed (reach.conforms parent) hmem
      exact .inl ⟨u, b, d, has, ⟨consumer, services, stop, parent⟩, served, hd, hduty⟩
    · exact .inr ⟨u, has, ⟨stop, last, parent⟩, served, hfire⟩

namespace Routed

variable {u u' : TaskId} {b b' : BrokerId} {d d' : Delivery}

theorem execution (h : Routed net S x m e u b d) (reach : Reachable net S) :
    e = ⟨b, d.queue, d.envelope.payload, Key.reply d.queue d.id, (net m).shared.config.replyTtl⟩ := by
  obtain ⟨consumer, services, stop, hloop⟩ := h.loop
  obtain ⟨_, -, hservice, -⟩ := reach.entry_of_given hloop h.handed
  rw [duty_start h.duty, hservice]

theorem not_before (h : Routed net S x m e u b d) (h' : Routed net S x' m' e' u b' d)
    (reach : Reachable net S) : ¬ x.event < x'.event := by
  intro hlt
  obtain ⟨consumer, services, stop, hloop⟩ := h.loop
  obtain ⟨consumer', services', stop', hloop'⟩ := h'.loop
  obtain ⟨rfl, hjob⟩ := hloop.unique hloop'
  cases hjob
  obtain rfl : e = e' := by
    have heq := h.duty.symm.trans h'.duty
    cases heq
    rfl
  obtain ⟨S₀, n, j, next, hub, q, reach₀, hpast, here, -, keeps⟩ := reach.before h'.started
  obtain ⟨rfl, rfl⟩ := hloop.unique (keeps _ _ _ ⟨_, here⟩)
  have hloop₀ : S₀.has u m (.loop (.dispatch b consumer services stop)) := ⟨_, here⟩
  have hrule := (discipline net).rule_of_served reach h'.started hloop
  rw [← hpast] at hrule
  change Dispatching (net m).shared b (traceOf u S₀.history) (.start e) at hrule
  have hdone : Effect.start e ∈ routed (traceOf u S₀.history) := by
    refine mem_routed (a := ()) (mem_traceOf.mpr ?_) rfl
    rw [hpast]
    exact ((at_past (Nat.le_of_lt h'.started.lt)).mpr ⟨hlt, h.started⟩).mem
  cases hrule with
  | harmless hh => cases hh
  | route rest hduty hnext =>
    obtain ⟨before, after, hsplit, hbefore, hafter⟩ := List.filterMap_eq_append_iff.mp hnext
    obtain ⟨skipped, d₂, later, rfl, -, hd₂, -⟩ := List.filterMap_eq_cons_iff.mp hafter
    rw [← hbefore] at hdone
    obtain ⟨d₁, hmem₁, hd₁⟩ := List.mem_filterMap.mp hdone
    have hmem₂ : d₂ ∈ skipped ++ d₂ :: later := by simp
    have hin₁ : d₁ ∈ given (traceOf u S₀.history) := hsplit ▸ List.mem_append_left _ hmem₁
    have hin₂ : d₂ ∈ given (traceOf u S₀.history) := hsplit ▸ List.mem_append_right _ hmem₂
    have hkey : Key.reply d₁.envelope.service d₁.id = Key.reply d₂.envelope.service d₂.id := by
      exact congrArg Execution.replyKey ((duty_start hd₁).symm.trans (duty_start hd₂))
    have hsame := reach₀.delivery_unique hloop₀ hloop₀ hin₁ hin₂ hkey
    have hnodup := reach₀.nodup_given hloop₀
    rw [hsplit] at hnodup
    exact (List.nodup_append.mp hnodup).2.2 d₁ hmem₁ d₂ hmem₂ hsame

theorem unique (h : Routed net S x m e u b d) (h' : Routed net S x' m' e' u' b' d')
    (reach : Reachable net S)
    (group : (net m).shared.config.group = (net m').shared.config.group)
    (key : e.replyKey = e'.replyKey) : x = x' := by
  obtain ⟨consumer, services, stop, hloop⟩ := h.loop
  obtain ⟨consumer', services', stop', hloop'⟩ := h'.loop
  obtain rfl : d = d' := by
    refine reach.delivery_unique hloop hloop' h.handed h'.handed ?_
    rw [duty_start h.duty, duty_start h'.duty] at key
    exact key
  obtain rfl := reach.reader_unique hloop hloop' group h.handed h'.handed
  have hle := h.not_before h' reach
  have hle' := h'.not_before h reach
  have hevent : x.event = x'.event := by omega
  exact TaskId.ext hevent ((reach.execution h.task).1.trans (reach.execution h'.task).1.symm)

end Routed

theorem Reachable.resolved (reach : Reachable net S) {t : TaskId} {n : NodeId} {j : Job}
    (has : S.has t n j) {service : String} {found : Option Route}
    (h : .served t (.resolve service) found ∈ S.history) :
    found = (net n).registry.resolve service := by
  obtain ⟨k, hk⟩ := exists_at_of_mem h
  obtain ⟨S₀, n', j', next, hub, q, -, -, here, answers, keeps⟩ := reach.before hk
  obtain ⟨rfl, -⟩ := has.unique (keeps _ _ _ ⟨_, here⟩)
  exact answers.1

def Setup.hosts (setup : Setup) (service : String) (h : Handler) : Prop :=
  ∃ route, setup.registry.resolve service = some route ∧ route.handler = some h

theorem Reachable.invoked (reach : Reachable net S) (has : S.has x m (.execution e)) {k : Nat}
    {service : String} {h : Handler} {payload : Bytes} {result : Except Error Bytes}
    (run : At S.history k (.served x (.invoke service h payload) result)) :
    service = e.service ∧ payload = e.payload ∧ (net m).hosts service h ∧
      ∃ found, traceOf x (past S.history k) = [⟨.resolve e.service, found⟩] := by
  have hrule := (discipline net).rule_of_served reach run has
  change Executing e (traceOf x (past S.history k)) (.invoke service h payload) at hrule
  cases hrule with
  | invoke _ route resolved handler =>
    refine ⟨rfl, rfl, ⟨route, ?_, handler⟩, _, resolved⟩
    have hmem : Event.served x (.resolve e.service) (some route) ∈ past S.history k := by
      rw [← mem_traceOf, resolved]
      exact List.mem_singleton_self _
    exact (reach.resolved has (List.mem_of_mem_drop hmem)).symm

theorem Reachable.invoked_once (reach : Reachable net S) (has : S.has x m (.execution e)) {k k' : Nat}
    {service service' : String} {h h' : Handler} {payload payload' : Bytes}
    {result result' : Except Error Bytes}
    (run : At S.history k (.served x (.invoke service h payload) result))
    (run' : At S.history k' (.served x (.invoke service' h' payload') result')) : k = k' := by
  have not_before {k k' : Nat} {service service' : String} {h h' : Handler}
      {payload payload' : Bytes} {result result' : Except Error Bytes}
      (run : At S.history k (.served x (.invoke service h payload) result))
      (run' : At S.history k' (.served x (.invoke service' h' payload') result')) : ¬ k < k' := by
    intro hlt
    obtain ⟨-, -, -, found, htrace⟩ := reach.invoked has run'
    have hmem : Event.served x (.invoke service h payload) result ∈ past S.history k' :=
      ((at_past (Nat.le_of_lt run'.lt)).mpr ⟨hlt, run⟩).mem
    rw [← mem_traceOf, htrace] at hmem
    cases List.mem_singleton.mp hmem
  have hle := not_before run run'
  have hle' := not_before run' run
  omega

end BrokeredCalls.Network
