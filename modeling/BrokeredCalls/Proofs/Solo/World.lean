import BrokeredCalls.Node.Basic
import BrokeredCalls.Proofs.Conduct
import BrokeredCalls.Proofs.Runs
import BrokeredCalls.Proofs.Solo.Plan

/-!
One node with a store of its own, doing one thing after the other: what each of its programs for
deferred calls comes to when no broker call fails.
-/

namespace BrokeredCalls.Solo

open Network (Setup)
open Node (Effect Execution)
open Program (Runs Asks)

structure World where
  hub : Hub
  pending : TaskQueue
  /-- The calls that were run, the newest first. -/
  ran : List (String × Bytes)

/-- What one program does while it is the only one. Executions are another's work. -/
def Answers (node : Setup) (now : FireTime) (W : World) : (r : Effect) → r.Answer → World → Prop
  | .broker _ c, a, W' => ∃ moment deadline h,
    W.hub.serve moment deadline c = some (a, h) ∧ W' = { W with hub := h }
  | .pending access, a, W' =>
    a = (access.run W.pending).1 ∧ W' = { W with pending := (access.run W.pending).2 }
  | .resolve service, a, W' => a = node.registry.resolve service ∧ W' = W
  | .servicesOn source, a, W' => a = node.registry.servicesOn source ∧ W' = W
  | .reading, a, W' => a = now ∧ W' = W
  | .isRaised _, a, W' => a = false ∧ W' = W
  | .invoke service _ payload, _, W' => W' = { W with ran := (service, payload) :: W.ran }
  | _, _, W' => W' = W

/-- A call that is started runs to its end at once. -/
def Serves (node : Setup) (now : FireTime) (W : World) : (r : Effect) → r.Answer → World → Prop
  | .start e, (), W' => Runs (Answers node now) e.routine W () W'
  | r, a, W' => Answers node now W r a W'

/-- Entries come from the queues of services that the node hosts. -/
def Act.Fits (node : Setup) : Act → Prop
  | .route source d =>
    source ∈ node.shared.sources ∧ d.envelope.service ∈ node.registry.servicesOn source.name
  | _ => True

def Performs (node : Setup) (W : World) : Act → World → Prop
  | .route source d, W' => ∃ now,
    Runs (Serves node now) (Node.Dispatch.route node.shared source.broker d) W () W'
  | .fire now last, W' => ∃ stop next,
    Runs (Serves node now) (Node.Deferred.round node.shared stop last) W next W'
  | .reload, W' => ∃ now r, Runs (Serves node now) (Node.Deferred.reload node.shared).run W r W'
  | .restart, W' => ∃ now r, Runs (Serves node now) (Node.Deferred.reload node.shared).run
    { W with pending := .empty } r W'

variable {node : Setup} {now : FireTime} {W W' : World}

section Calls

variable {b : BrokerId} {key field : String}

theorem serves_call {c : Broker.Call} {r a : Except Error c.Value} {hub : Hub}
    (h : ∀ moment deadline, W.hub.serve moment deadline c = some (a, hub)) :
    Serves node now W (.broker b c) r W' ↔ r = a ∧ W' = { W with hub := hub } := by
  constructor
  · rintro ⟨moment, deadline, hub', hs, rfl⟩
    rw [h] at hs
    cases hs
    exact ⟨rfl, rfl⟩
  · rintro ⟨rfl, rfl⟩
    exact ⟨⟨⟨0⟩, 0⟩, 0, hub, h _ _, rfl⟩

theorem hashSet_run {payload : Bytes} {r : Except Error Unit} :
    Runs (Serves node now) (Node.callOn b (.hashSet key field payload)).run W r W' ↔
      r = .ok () ∧ W' = { W with hub := W.hub.hashSet key field payload } :=
  Runs.request_iff.trans (serves_call fun _ _ => rfl)

theorem hashDelete_run {r : Except Error Unit} :
    Runs (Serves node now) (Node.callOn b (.hashDelete key field)).run W r W' ↔
      r = .ok () ∧ W' = { W with hub := (W.hub.hashTake key field).2 } :=
  Runs.request_iff.trans (serves_call fun _ _ => rfl)

theorem hashFields_run {r : Except Error (List String)} :
    Runs (Serves node now) (Node.callOn b (.hashFields key)).run W r W' ↔
      r = .ok (W.hub.hashFields key) ∧ W' = W :=
  Runs.request_iff.trans (serves_call fun _ _ => rfl)

theorem bindExcept_run {σ ε α β : Type} {serve : Node.interface.Service σ} {W W₁ W' : σ} {a : α}
    {p : Fallible Node.interface ε α} {f : α → Fallible Node.interface ε β} {r : Except ε β}
    (h : ∀ r' W', Runs serve p.run W r' W' ↔ r' = .ok a ∧ W' = W₁) :
    Runs serve (p >>= f).run W r W' ↔ Runs serve (f a).run W₁ r W' := by
  rw [Runs.bindExcept_iff]
  constructor
  · rintro (⟨a', W'', hp, hf⟩ | ⟨e, hp, -⟩)
    · obtain ⟨heq, rfl⟩ := (h _ _).mp hp
      cases heq
      exact hf
    · cases ((h _ _).mp hp).1
  · intro hf
    exact .inl ⟨a, W₁, (h _ _).mpr ⟨rfl, rfl⟩, hf⟩

theorem lift_run {σ α : Type} {serve : Node.interface.Service σ} {W W₁ W' : σ} {a : α}
    {p : Node.Routine α} {r : Except Error α}
    (h : ∀ r' W', Runs serve p W r' W' ↔ r' = a ∧ W' = W₁) :
    Runs serve (ExceptT.lift p : Node.Attempt α).run W r W' ↔ r = .ok a ∧ W' = W₁ := by
  refine Runs.lift_iff.trans ⟨?_, ?_⟩
  · rintro ⟨a', hp, rfl⟩
    obtain ⟨rfl, rfl⟩ := (h _ _).mp hp
    exact ⟨rfl, rfl⟩
  · rintro ⟨rfl, rfl⟩
    exact ⟨a, (h _ _).mpr ⟨rfl, rfl⟩, rfl⟩

theorem access_run {a : TaskQueue.Access} {r : Except Error a.Value} :
    Runs (Serves node now) (Node.access a).run W r W' ↔
      r = .ok (a.run W.pending).1 ∧ W' = { W with pending := (a.run W.pending).2 } :=
  lift_run fun _ _ => Runs.request_iff

theorem servicesOn_run {source : String} {r : Except Error (List String)} :
    Runs (Serves node now) (ExceptT.lift (Node.ask (.servicesOn source)) :
      Node.Attempt (List String)).run W r W' ↔
        r = .ok (node.registry.servicesOn source) ∧ W' = W :=
  lift_run fun _ _ => Runs.request_iff

end Calls

section Deferred

variable {b : BrokerId} {service : String} {t : FireTime}

theorem add_run {payload : Bytes} {r : Except Error Unit} :
    Runs (Serves node now) (Node.Deferred.add b service t payload).run W r W' ↔ r = .ok () ∧
      W' = ⟨W.hub.hashSet (Key.delay service) (Decimal.ofInt64 t) payload,
        W.pending.insert ⟨t, service⟩, W.ran⟩ :=
  (bindExcept_run fun _ _ => hashSet_run).trans (bindExcept_run fun _ _ => access_run)

theorem remove_run {r : Except Error Unit} :
    Runs (Serves node now) (Node.Deferred.remove b service t).run W r W' ↔ r = .ok () ∧
      W' = ⟨(W.hub.hashTake (Key.delay service) (Decimal.ofInt64 t)).2,
        W.pending.erase ⟨t, service⟩, W.ran⟩ :=
  (bindExcept_run fun _ _ => access_run).trans hashDelete_run

def scannedServices (hub : Hub) (services : List String) : List DelayedTask :=
  services.flatMap fun service =>
    Node.Deferred.tasksOf service (hub.hashFields (Key.delay service))

def scanned (node : Setup) (hub : Hub) (sources : List Node.Source) : List DelayedTask :=
  sources.flatMap fun source => scannedServices hub (node.registry.servicesOn source.name)

theorem scanServices_run {services : List String} {r : Except Error (List DelayedTask)} :
    Runs (Serves node now) (Node.Deferred.scanServices b services).run W r W' ↔
      r = .ok (scannedServices W.hub services) ∧ W' = W := by
  induction services generalizing r W' with
  | nil => exact Iff.rfl
  | cons service rest ih =>
    refine (bindExcept_run fun _ _ => hashFields_run).trans ?_
    exact bindExcept_run fun _ _ => ih

theorem scan_run {sources : List Node.Source} {r : Except Error (List DelayedTask)} :
    Runs (Serves node now) (Node.Deferred.scan sources).run W r W' ↔
      r = .ok (scanned node W.hub sources) ∧ W' = W := by
  induction sources generalizing r W' with
  | nil => exact Iff.rfl
  | cons source rest ih =>
    refine (bindExcept_run fun _ _ => servicesOn_run).trans ?_
    refine (bindExcept_run fun _ _ => scanServices_run).trans ?_
    exact bindExcept_run fun _ _ => ih

theorem reload_run {r : Except Error Nat} :
    Runs (Serves node now) (Node.Deferred.reload node.shared).run W r W' ↔
      r = .ok (TaskQueue.ofList (scanned node W.hub node.shared.sources)).size ∧
        W' = { W with pending := .ofList (scanned node W.hub node.shared.sources) } :=
  (bindExcept_run fun _ _ => scan_run).trans access_run

theorem resync_run {r : Except Error Unit} :
    Runs (Serves node now) (Node.Deferred.resync node.shared).run W r W' ↔ r = .ok () ∧
      W' = { W with pending := W.pending.merge (scanned node W.hub node.shared.sources) } :=
  (bindExcept_run fun _ _ => scan_run).trans access_run

theorem brokerFor_run_of {σ : Type} {serve : Node.interface.Service σ} {W W' : σ}
    {r : Option BrokerId} (resolves : ∀ a W', serve W (.resolve service) a W' ↔
      a = node.registry.resolve service ∧ W' = W) :
    Runs serve (Node.Deferred.brokerFor node.shared service) W r W' ↔
      r = (node.registry.resolve service).bind (fun route => node.shared.brokerOf route.source) ∧
        W' = W := by
  refine Runs.bind_iff.trans ⟨?_, ?_⟩
  · rintro ⟨found, W₁, served, rfl, rfl⟩
    obtain ⟨rfl, rfl⟩ := (resolves _ _).mp (Runs.request_iff.mp served)
    exact ⟨rfl, rfl⟩
  · rintro ⟨rfl, rfl⟩
    exact ⟨_, W', Runs.request_iff.mpr ((resolves _ _).mpr ⟨rfl, rfl⟩), rfl, rfl⟩

theorem brokerFor_run {r : Option BrokerId} :
    Runs (Serves node now) (Node.Deferred.brokerFor node.shared service) W r W' ↔
      r = (node.registry.resolve service).bind (fun route => node.shared.brokerOf route.source) ∧
        W' = W := brokerFor_run_of fun _ _ => Iff.rfl

theorem nextStep_run {r : Node.Deferred.Step} :
    Runs (Serves node now) (Node.Deferred.nextStep node.shared) W r W' ↔
      r = .of node.shared.config.pollInterval now (W.pending.next now).1 ∧
        W' = { W with pending := (W.pending.next now).2 } := by
  refine Runs.bind_iff.trans ⟨?_, ?_⟩
  · rintro ⟨reading, W₁, served, run⟩
    obtain ⟨rfl, rfl⟩ := Runs.request_iff.mp served
    obtain ⟨next, W₂, served, rfl, rfl⟩ := Runs.bind_iff.mp run
    obtain ⟨rfl, rfl⟩ := Runs.request_iff.mp served
    exact ⟨rfl, rfl⟩
  · rintro ⟨rfl, rfl⟩
    refine ⟨now, W, Runs.request_iff.mpr ⟨rfl, rfl⟩, ?_⟩
    exact Runs.bind_iff.mpr ⟨_, _, Runs.request_iff.mpr ⟨rfl, rfl⟩, rfl, rfl⟩

structure Ran (W : World) (service : String) (payload : Bytes) (W' : World) : Prop where
  hashes : W'.hub.hashes = W.hub.hashes
  pending : W'.pending = W.pending
  ran : W'.ran = (service, payload) :: W.ran

theorem execution_run {e : Execution} (hosts : node.Attends e.service)
    (run : Runs (Answers node now) e.routine W () W') : Ran W e.service e.payload W' := by
  obtain ⟨handler, source, -, hr, -⟩ := hosts.resolve
  obtain ⟨reply, W₁, executed, delivered⟩ := Runs.bind_iff.mp run
  obtain ⟨found, W₂, resolved, handled⟩ := Runs.bind_iff.mp executed
  obtain ⟨rfl, rfl⟩ := Runs.request_iff.mp resolved
  rw [hr] at handled
  obtain ⟨result, W₃, invoked, -, rfl⟩ := Runs.bind_iff.mp handled
  obtain rfl := Runs.request_iff.mp invoked
  obtain ⟨_, W₄, pushed, -, rfl⟩ := Runs.expand_iff.mp delivered
  obtain ⟨moment, deadline, hub, hs, rfl⟩ := Runs.request_iff.mp pushed
  exact ⟨Hub.hashes_of_serve hs rfl, rfl, rfl⟩

theorem claim_run {t : DelayedTask} {r : Except Error (Option Bytes)} :
    Runs (Serves node now) (Node.ask
      (.broker b (.hashTake (Key.delay t.service) (Decimal.ofInt64 t.fireAt)))) W r W' ↔
        r = .ok (W.hub.field (Key.delay t.service) (Decimal.ofInt64 t.fireAt)) ∧
          W' = { W with
            hub := (W.hub.hashTake (Key.delay t.service) (Decimal.ofInt64 t.fireAt)).2 } := by
  rw [← Hub.hashTake_fst]
  exact Runs.request_iff.trans (serves_call fun _ _ => rfl)

theorem fire_run {t : DelayedTask} {payload : Bytes} {r : Except Error Unit}
    (hosts : node.Attends t.service)
    (held : W.hub.field (Key.delay t.service) (Decimal.ofInt64 t.fireAt) = some payload)
    (full : payload ≠ [])
    (run : Runs (Serves node now) (Node.Deferred.fire node.shared t).run W r W') :
    Ran { W with hub := (W.hub.hashTake (Key.delay t.service) (Decimal.ofInt64 t.fireAt)).2 }
      t.service payload W' := by
  obtain ⟨handler, source, b, hr, hb⟩ := hosts.resolve
  have found : (node.registry.resolve t.service).bind
      (fun route => node.shared.brokerOf route.source) = some b := by
    rw [hr]
    exact hb
  have claimable := (bindExcept_run fun _ _ => lift_run fun _ _ => brokerFor_run).mp run
  rw [found] at claimable
  have claimed := (bindExcept_run fun _ _ => lift_run fun _ _ => claim_run).mp claimable
  rw [held] at claimed
  cases payload with
  | nil => exact absurd rfl full
  | cons byte bytes =>
    obtain ⟨_, started, -⟩ := Runs.lift_iff.mp claimed
    exact execution_run hosts (Runs.request_iff.mp started)

theorem rest_run {stop : SignalId} {again : Node.Loop} {r : Option Node.Loop}
    (run : Runs (Serves node now) (Node.Deferred.rest node.shared stop again) W r W') :
    ∃ pause, Runs (Serves node now) (Node.Deferred.pauseAfter node.shared
        (.of node.shared.config.pollInterval now (W.pending.next now).1))
      { W with pending := (W.pending.next now).2 } pause W' := by
  obtain ⟨step, W₁, looked, run⟩ := Runs.bind_iff.mp run
  obtain ⟨rfl, rfl⟩ := nextStep_run.mp looked
  obtain ⟨pause, W₂, dealt, run⟩ := Runs.bind_iff.mp run
  refine ⟨pause, ?_⟩
  cases pause with
  | none =>
    obtain ⟨-, rfl⟩ := run
    exact dealt
  | some d =>
    obtain ⟨ended, W₃, paused, run⟩ := Runs.bind_iff.mp run
    obtain rfl : W₃ = W₂ := Runs.request_iff.mp paused
    cases ended <;>
      · obtain ⟨-, rfl⟩ := run
        exact dealt

theorem rest_of_round {σ : Type} {serve : Node.interface.Service σ} {s : Node.Shared} {W W' : σ}
    {stop : SignalId} {last : Nat} {r : Option Node.Loop}
    (run : Runs serve (Node.Deferred.round s stop last) W r W') :
    ∃ raised W₁, serve W (.isRaised stop) raised W₁ ∧ (raised = false →
      ∃ clock W₂ W₃ last', serve W₁ .clock clock W₂ ∧
        (W₃ = W₂ ∨ ∃ merged, Runs serve (Node.Deferred.resync s).run W₂ merged W₃) ∧
        Runs serve (Node.Deferred.rest s stop (.fire stop last')) W₃ r W') := by
  obtain ⟨raised, W₁, asked, going⟩ := Runs.bind_iff.mp run
  refine ⟨raised, W₁, Runs.request_iff.mp asked, ?_⟩
  rintro rfl
  obtain ⟨clock, W₂, read, timed⟩ := Runs.bind_iff.mp going
  cases hdue : Node.Deferred.resyncDue s last clock with
  | false =>
    simp only [hdue] at timed
    exact ⟨clock, W₂, W₂, last, Runs.request_iff.mp read, .inl rfl, timed⟩
  | true =>
    simp only [hdue, if_true] at timed
    obtain ⟨merged, W₃, merging, looking⟩ := Runs.bind_iff.mp timed
    exact ⟨clock, W₂, W₃, clock, Runs.request_iff.mp read, .inr ⟨merged, merging⟩, looking⟩

theorem round_run {stop : SignalId} {last : Nat} {r : Option Node.Loop}
    (run : Runs (Serves node now) (Node.Deferred.round node.shared stop last) W r W') :
    ∃ q pause, (q = W.pending ∨ q = W.pending.merge (scanned node W.hub node.shared.sources)) ∧
      Runs (Serves node now) (Node.Deferred.pauseAfter node.shared
          (.of node.shared.config.pollInterval now (q.next now).1))
        { W with pending := (q.next now).2 } pause W' := by
  obtain ⟨raised, W₁, ⟨rfl, rfl⟩, going⟩ := rest_of_round run
  obtain ⟨clock, W₂, W₃, last', read, merged, looking⟩ := going rfl
  obtain rfl : W₂ = W₁ := read
  obtain ⟨pause, dealt⟩ := rest_run looking
  rcases merged with rfl | ⟨_, merged⟩
  · exact ⟨_, pause, .inl rfl, dealt⟩
  · obtain ⟨-, rfl⟩ := resync_run.mp merged
    exact ⟨_, pause, .inr rfl, dealt⟩

end Deferred

end BrokeredCalls.Solo
