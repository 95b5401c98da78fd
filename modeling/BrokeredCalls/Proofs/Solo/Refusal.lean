import BrokeredCalls.Proofs.Solo.Refinement

/-!
What a deferred call comes to when its broker call fails and changes nothing. An add asks the broker
before it tracks, and the fire loop tracks again what it could not claim. A removal forgets the task
before it asks, and leaves it so.
-/

namespace BrokeredCalls.Solo

open Network (Setup)
open Program (Runs Asks)

def Refuses (node : Setup) (now : FireTime) (e : Error) (W : World) :
    (r : Node.Effect) → r.Answer → World → Prop
  | .broker _ _, a, W' => a = .error e ∧ W' = W
  | r, a, W' => Answers node now W r a W'

variable {node : Setup} {now : FireTime} {e : Error} {b : BrokerId} {service : String} {t : FireTime}
  {W W' : World}

theorem bindExcept_refused {α β : Type} {p : Node.Attempt α} {f : α → Node.Attempt β}
    {r : Except Error β}
    (h : ∀ r' W', Runs (Refuses node now e) p.run W r' W' ↔ r' = .error e ∧ W' = W) :
    Runs (Refuses node now e) (p >>= f).run W r W' ↔ r = .error e ∧ W' = W := by
  rw [Runs.bindExcept_iff]
  constructor
  · rintro (⟨a, W₁, ran, -⟩ | ⟨e', ran, rfl⟩)
    · cases ((h _ _).mp ran).1
    · obtain ⟨heq, rfl⟩ := (h _ _).mp ran
      cases heq
      exact ⟨rfl, rfl⟩
  · rintro ⟨rfl, rfl⟩
    exact .inr ⟨e, (h _ _).mpr ⟨rfl, rfl⟩, rfl⟩

theorem callOn_refused {c : Broker.Call} {r : Except Error c.Value} :
    Runs (Refuses node now e) (Node.callOn b c).run W r W' ↔ r = .error e ∧ W' = W :=
  Runs.request_iff

theorem access_refused {a : TaskQueue.Access} {r : Except Error a.Value} :
    Runs (Refuses node now e) (Node.access a).run W r W' ↔
      r = .ok (a.run W.pending).1 ∧ W' = { W with pending := (a.run W.pending).2 } :=
  lift_run fun _ _ => Runs.request_iff

theorem add_refused {payload : Bytes} {r : Except Error Unit} :
    Runs (Refuses node now e) (Node.Deferred.add b service t payload).run W r W' ↔
      r = .error e ∧ W' = W :=
  bindExcept_refused fun _ _ => callOn_refused

theorem remove_refused {r : Except Error Unit} :
    Runs (Refuses node now e) (Node.Deferred.remove b service t).run W r W' ↔
      r = .error e ∧ W' = { W with pending := W.pending.erase ⟨t, service⟩ } :=
  (bindExcept_run fun _ _ => access_refused).trans callOn_refused

def Own : Node.Effect → Prop
  | .reading | .pending _ => True
  | _ => False

theorem refuses_own (r : Node.Effect) (own : Own r) (W : World) (a : r.Answer) (W' : World) :
    Refuses node now e W r a W' ↔ Serves node now W r a W' := by
  cases r with
  | reading | pending => exact Iff.rfl
  | _ => exact absurd own id

theorem nextStep_refused {r : Node.Deferred.Step} :
    Runs (Refuses node now e) (Node.Deferred.nextStep node.shared) W r W' ↔
      r = .of node.shared.config.pollInterval now (W.pending.next now).1 ∧
        W' = { W with pending := (W.pending.next now).2 } := by
  have asks : Asks (I := Node.interface) Own (Node.Deferred.nextStep node.shared) :=
    ⟨trivial, fun _ => ⟨trivial, fun _ => trivial⟩⟩
  exact (asks.runs_congr refuses_own).trans nextStep_run

theorem brokerFor_refused {r : Option BrokerId} :
    Runs (Refuses node now e) (Node.Deferred.brokerFor node.shared service) W r W' ↔
      r = (node.registry.resolve service).bind (fun route => node.shared.brokerOf route.source) ∧
        W' = W := brokerFor_run_of fun _ _ => Iff.rfl

def Claimable (node : Setup) (t : DelayedTask) : Prop :=
  ∃ b, (node.registry.resolve t.service).bind (fun route => node.shared.brokerOf route.source) = some b

theorem fire_refused {t : DelayedTask} {r : Except Error Unit} (claimable : Claimable node t) :
    Runs (Refuses node now e) (Node.Deferred.fire node.shared t).run W r W' ↔
      r = .error e ∧ W' = { W with pending := W.pending.insert t } := by
  obtain ⟨b, found⟩ := claimable
  refine (bindExcept_run fun _ _ => lift_run fun _ _ => brokerFor_refused).trans ?_
  rw [found]
  refine (bindExcept_run fun _ _ => lift_run fun _ _ => Runs.request_iff).trans ?_
  exact (bindExcept_run fun _ _ => access_refused).trans Iff.rfl

theorem pauseAfter_refused {t : DelayedTask} {pause : Option Duration} (claimable : Claimable node t) :
    Runs (Refuses node now e) (Node.Deferred.pauseAfter node.shared (.fire t)) W pause W' ↔
      pause = some node.shared.config.loopBackoff ∧ W' = { W with pending := W.pending.insert t } := by
  constructor
  · intro run
    obtain ⟨result, W₁, fired, ended⟩ := Runs.bind_iff.mp run
    obtain ⟨rfl, rfl⟩ := (fire_refused claimable).mp fired
    obtain ⟨rfl, rfl⟩ := ended
    exact ⟨rfl, rfl⟩
  · rintro ⟨rfl, rfl⟩
    exact Runs.bind_iff.mpr ⟨.error e, _, (fire_refused claimable).mpr ⟨rfl, rfl⟩, rfl, rfl⟩

theorem rest_refused {t : DelayedTask} {stop : SignalId} {again : Node.Loop} {r : Option Node.Loop}
    (first : W.pending.peek = some t) (due : t.fireAt ≤ now) (claimable : Claimable node t) :
    Runs (Refuses node now e) (Node.Deferred.rest node.shared stop again) W r W' ↔
      (r = none ∨ r = some again) ∧ W' = W := by
  have looked : W.pending.next now = (.due t, W.pending.erase t) :=
    TaskQueue.next_eq_due_iff.mpr ⟨first, due, rfl⟩
  have back : (W.pending.erase t).insert t = W.pending :=
    TaskQueue.insert_erase (TaskQueue.peek_eq_some_iff.mp first).1
  have found {step : Node.Deferred.Step} {W₁ : World} :
      Runs (Refuses node now e) (Node.Deferred.nextStep node.shared) W step W₁ ↔
        step = .fire t ∧ W₁ = { W with pending := W.pending.erase t } := by
    rw [nextStep_refused, looked]
    exact Iff.rfl
  constructor
  · intro run
    obtain ⟨step, W₁, stepped, dealing⟩ := Runs.bind_iff.mp run
    obtain ⟨rfl, rfl⟩ := found.mp stepped
    obtain ⟨pause, W₂, dealt, pausing⟩ := Runs.bind_iff.mp dealing
    obtain ⟨rfl, rfl⟩ := (pauseAfter_refused claimable).mp dealt
    obtain ⟨ended, W₃, paused, ending⟩ := Runs.bind_iff.mp pausing
    obtain rfl := Runs.request_iff.mp paused
    simp only [back] at ending
    cases ended with
    | abandoned => exact ⟨.inl ending.1, ending.2⟩
    | value _ => exact ⟨.inr ending.1, ending.2⟩
    | raised => exact ⟨.inr ending.1, ending.2⟩
  · rintro ⟨going, rfl⟩
    have dealt : Runs (Refuses node now e) (Node.Deferred.pauseAfter node.shared (.fire t))
        { W' with pending := W'.pending.erase t } (some node.shared.config.loopBackoff) W' :=
      (pauseAfter_refused claimable).mpr ⟨rfl, by simp only [back]⟩
    refine Runs.bind_iff.mpr ⟨.fire t, _, found.mpr ⟨rfl, rfl⟩, Runs.bind_iff.mpr ⟨_, W', dealt, ?_⟩⟩
    rcases going with rfl | rfl
    · exact Runs.bind_iff.mpr ⟨.abandoned, W', Runs.request_iff.mpr rfl, rfl, rfl⟩
    · exact Runs.bind_iff.mpr ⟨.raised, W', Runs.request_iff.mpr rfl, rfl, rfl⟩

def Agree (W : World) (t : DelayedTask) : Prop :=
  t ∈ W.pending ↔ W.hub.field (Key.delay t.service) (Decimal.ofInt64 t.fireAt) ≠ none

inductive Delayed where
  | add (payload : Bytes)
  | remove
  | fire

inductive Delayed.Fails (node : Setup) (t : DelayedTask) (W : World) : Delayed → World → Prop
  | add {now : FireTime} {e : Error} {b : BrokerId} {payload : Bytes} {r : Except Error Unit}
    {W' : World} (run : Runs (Refuses node now e)
      (Node.Deferred.add b t.service t.fireAt payload).run W r W') : Fails node t W (.add payload) W'
  | remove {now : FireTime} {e : Error} {b : BrokerId} {r : Except Error Unit} {W' : World}
    (run : Runs (Refuses node now e) (Node.Deferred.remove b t.service t.fireAt).run W r W') :
    Fails node t W .remove W'
  | fire {now : FireTime} {e : Error} {stop : SignalId} {again : Node.Loop} {r : Option Node.Loop}
    {W' : World} (first : W.pending.peek = some t) (due : t.fireAt ≤ now)
    (claimable : Claimable node t)
    (run : Runs (Refuses node now e) (Node.Deferred.rest node.shared stop again) W r W') :
    Fails node t W .fire W'

theorem fails_of_route {d : Delivery} (timed : d.envelope.fireAt = some t)
    (run : Runs (Refuses node now e) (Node.Dispatch.route node.shared b d) W () W') :
    (if d.envelope.payload = [] then .remove else .add d.envelope.payload : Delayed).Fails node
      ⟨t, d.envelope.service⟩ W W' := by
  unfold Node.Dispatch.route at run
  cases payload : d.envelope.payload with
  | nil =>
    simp only [Envelope.isPlaceholder, Envelope.isTombstone, payload, timed] at run
    obtain ⟨_, W₁, removed, -, rfl⟩ := Runs.bind_iff.mp run
    exact .remove removed
  | cons byte bytes =>
    simp only [Envelope.isPlaceholder, Envelope.isTombstone, payload, timed] at run
    obtain ⟨_, W₁, added, -, rfl⟩ := Runs.bind_iff.mp run
    exact .add added

structure Left (node : Setup) (t : DelayedTask) (W : World) (op : Delayed) (W' : World) : Prop where
  durable : W'.hub = W.hub
  ran : W'.ran = W.ran
  tracked : ∀ u, u ∈ W'.pending ↔ u ∈ W.pending ∧ ¬ (op = .remove ∧ u = t)
  agree : Agree W' t ↔ (op = .remove → t ∉ W.pending)
  regained : node.Attends t.service → t ∈ W.pending → ∀ now r W'',
    Runs (Serves node now) (Node.Deferred.reload node.shared).run W' r W'' → t ∈ W''.pending

namespace Delayed.Fails

variable {t : DelayedTask} {op : Delayed}

theorem eq_or_erased (fails : op.Fails node t W W') :
    op ≠ .remove ∧ W' = W ∨ op = .remove ∧ W' = { W with pending := W.pending.erase t } := by
  cases fails with
  | add run => exact .inl ⟨by simp, (add_refused.mp run).2⟩
  | remove run => exact .inr ⟨rfl, (remove_refused.mp run).2⟩
  | fire first due claimable run => exact .inl ⟨by simp, ((rest_refused first due claimable).mp run).2⟩

theorem tracked_iff (fails : op.Fails node t W W') (u : DelayedTask) :
    u ∈ W'.pending ↔ u ∈ W.pending ∧ ¬ (op = .remove ∧ u = t) := by
  rcases fails.eq_or_erased with ⟨other, rfl⟩ | ⟨rfl, rfl⟩
  · simp [other]
  · simp [TaskQueue.mem_erase]

theorem durable (fails : op.Fails node t W W') : W'.hub = W.hub := by
  rcases fails.eq_or_erased with ⟨-, rfl⟩ | ⟨-, rfl⟩ <;> rfl

theorem agree_iff (agree : Agree W t) (fails : op.Fails node t W W') :
    Agree W' t ↔ (op = .remove → t ∉ W.pending) := by
  unfold Agree at *
  rw [fails.tracked_iff, fails.durable, ← agree]
  by_cases removed : op = .remove <;> simp [removed]

theorem regained (agree : Agree W t) (fails : op.Fails node t W W') (attends : node.Attends t.service)
    (tracked : t ∈ W.pending) {now : FireTime} {r : Except Error Nat} {W'' : World}
    (run : Runs (Serves node now) (Node.Deferred.reload node.shared).run W' r W'') :
    t ∈ W''.pending := by
  obtain ⟨-, rfl⟩ := reload_run.mp run
  rw [TaskQueue.mem_ofList, mem_scanned]
  refine ⟨attends, Decimal.ofInt64 t.fireAt, ?_, Decimal.int64?_ofInt64 _⟩
  rw [Hub.mem_hashFields, fails.durable, Option.isSome_iff_ne_none]
  exact agree.mp tracked

theorem outcome (fails : op.Fails node t W W') (agree : Agree W t) : Left node t W op W' where
  durable := fails.durable
  ran := by rcases fails.eq_or_erased with ⟨-, rfl⟩ | ⟨-, rfl⟩ <;> rfl
  tracked := fails.tracked_iff
  agree := agree_iff agree fails
  regained attends tracked _ _ _ run := regained agree fails attends tracked run

end Delayed.Fails

/-- A deferred call of the year 2027, tracked and durable. -/
def scheduled : World :=
  ⟨Hub.empty.hashSet (Key.delay "s") (Decimal.ofInt64 1800000000000000000) [49],
    .ofList [⟨1800000000000000000, "s"⟩], []⟩

theorem agree_scheduled : Agree scheduled ⟨1800000000000000000, "s"⟩ := by
  constructor
  · intro _
    simp [scheduled, Hub.field_hashSet]
  · intro _
    simp [scheduled, TaskQueue.mem_ofList]

theorem fails_scheduled : Delayed.remove.Fails (.echo "rpc") ⟨1800000000000000000, "s"⟩ scheduled
    { scheduled with pending := scheduled.pending.erase ⟨1800000000000000000, "s"⟩ } := by
  have run : Runs (Refuses (.echo "rpc") 0 (.transport "down"))
      (Node.Deferred.remove 0 "s" 1800000000000000000).run scheduled (.error (.transport "down"))
      { scheduled with pending := scheduled.pending.erase ⟨1800000000000000000, "s"⟩ } :=
    remove_refused.mpr ⟨rfl, rfl⟩
  exact .remove run

theorem left_scheduled : Agree scheduled ⟨1800000000000000000, "s"⟩ ∧
    ∃ W', Left (.echo "rpc") ⟨1800000000000000000, "s"⟩ scheduled .remove W' :=
  ⟨agree_scheduled, _, fails_scheduled.outcome agree_scheduled⟩

theorem not_agree_after_failure :
    ¬ ∀ (node : Setup) (t : DelayedTask) (W : World) (op : Delayed) (W' : World),
      Agree W t → op.Fails node t W W' → Agree W' t := by
  intro hall
  have agrees := hall _ _ _ _ _ agree_scheduled fails_scheduled
  have tracked := agrees.mpr (agree_scheduled.mp (by simp [scheduled, TaskQueue.mem_ofList]))
  exact (TaskQueue.mem_erase.mp tracked).2 rfl

end BrokeredCalls.Solo
