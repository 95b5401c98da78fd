import BrokeredCalls.Proofs.Lifetime.World

namespace BrokeredCalls.Lifetime

open Broker (Call ensureGroup)
open Network (Ending Job Operation Trail jobsOf)
open Node (Effect Loop Routine Shared Source)
open Program (Runs)
open Provisioning (listing)
open Shutdown (StoreId Task)

section Runs

variable {I : Interface} {σ ε α β : Type} {serve : I.Service σ} {v v₁ v' : σ}

theorem andThen {p : Fallible I ε α} {f : α → Fallible I ε β} {a : α} {r : Except ε β}
    (first : Runs serve p.run v (.ok a) v₁) (rest : Runs serve (f a).run v₁ r v') :
    Runs serve (p >>= f).run v r v' := Runs.bindExcept_iff.mpr (.inl ⟨a, v₁, first, rest⟩)

theorem lifted {p : Program I α} {a : α} (run : Runs serve p v a v') :
    Runs serve (ExceptT.lift p : Fallible I ε α).run v (.ok a) v' := Runs.lift_iff.mpr ⟨a, run, rfl⟩

end Runs

def Alone (now : Moment) : Broker.interface.Service Hub := fun h c a h' =>
  c ≠ .close ∧ h.serve now now.clock c = some (a, h')

section Group

variable (now : Moment) {h : Hub} (q g : String)

theorem exists_listing {Q : Hub.Queue} (there : h.queues.find? q = some Q) :
    ∃ h', Runs (Alone now) (listing q g).run h (.ok ()) h' := by
  have listed : Runs (Alone now) (Broker.attempt (.listGroups q)).run h
      (.ok (.ok (Utf8.ascending Q.groups.keys))) h := by
    refine lifted (Runs.request_iff.mpr ⟨by simp, ?_⟩)
    simp [Hub.serve, Hub.listGroups, there]
  have created : Runs (Alone now) (Broker.attempt (.createGroup q g)).run h (.ok (.ok ()))
      { h with queues := h.queues.set q (Q.createGroup g) } := by
    refine lifted (Runs.request_iff.mpr ⟨by simp, ?_⟩)
    simp [Hub.serve, Hub.createGroup, there]
  have rest : ∃ h', Runs (Alone now) (if g ∈ Utf8.ascending Q.groups.keys then pure ()
      else Broker.createGroupAgain q g : Fallible Broker.interface Error Unit).run h (.ok ()) h' := by
    split
    · exact ⟨h, rfl, rfl⟩
    · exact ⟨_, andThen created ⟨rfl, rfl⟩⟩
  obtain ⟨h', rest⟩ := rest
  exact ⟨h', andThen listed rest⟩

theorem exists_ensureGroup (h : Hub) :
    ∃ h', Runs (Alone now) (ensureGroup q g).run h (.ok ()) h' := by
  rw [Provisioning.ensureGroup_eq]
  have looked : Runs (Alone now) (Broker.call (.queueExists q)).run h (.ok (h.queues.contains q)) h :=
    Runs.request_iff.mpr ⟨nofun, rfl⟩
  cases there : h.queues.contains q with
  | true =>
    obtain ⟨Q, found⟩ := Option.isSome_iff_exists.mp there
    obtain ⟨h', run⟩ := exists_listing now q g found
    exact ⟨h', andThen (a := true) (there ▸ looked) run⟩
  | false =>
    have served : h.serve now now.clock (.appendPlaceholder q) =
      some (.ok _, (h.append now q (.placeholder q) none).2) := rfl
    obtain ⟨Q, found⟩ := Option.ne_none_iff_exists'.mp (Provisioning.there_of_placeholder served).2
    obtain ⟨h', run⟩ := exists_listing now q g found
    have placed : Runs (Alone now) (Broker.perform (.appendPlaceholder q)).run h (.ok ()) _ :=
      andThen (Runs.request_iff.mpr ⟨nofun, served⟩) ⟨rfl, rfl⟩
    exact ⟨h', andThen (a := false) (there ▸ looked) (andThen placed run)⟩

end Group

variable (storeOf : BrokerId → StoreId)

/-- How a node is served whose brokers are open and that has the stores to itself. -/
def Gives (w : World) : Node.interface.Service (StoreId → Hub)
  | v, .broker b c, a, v' => (w.handles b).closed = false ∧ c ≠ .close ∧
    ∃ h, (v (storeOf b)).serve w.now w.now.clock c = some (a, h) ∧
      v' = fun i => if i = storeOf b then h else v i
  | v, .servicesOn source, a, v' => a = w.registry.servicesOn source ∧ v' = v
  | v, .pending (.replace ts), n, v' => n = ((TaskQueue.Access.replace ts).run .empty).1 ∧ v' = v
  | v, .clock, a, v' => a = w.now.clock ∧ v' = v
  | v, .subscribe, _, v' | v, .launch _, _, v' => v' = v
  | _, _, _, _ => False

section Ready

variable {w : World} {b : BrokerId} (s : Shared) (opened : (w.handles b).closed = false)
include opened

theorem gives_broker {p : Program Broker.interface (Except Error Unit)} {v : StoreId → Hub} {h' : Hub}
    {r : Except Error Unit} (run : Runs (Alone w.now) p (v (storeOf b)) r h') :
    Runs (Gives storeOf w) (Node.onBroker b p) v r fun i => if i = storeOf b then h' else v i := by
  have one : Runs (fun v c a v' => Runs (Gives storeOf w) (Node.ask (.broker b c)) v a v') p
      (fun i => if i = storeOf b then v (storeOf b) else v i) r
      (fun i => if i = storeOf b then h' else v i) := by
    refine Runs.map (fun h i => if i = storeOf b then h else v i) (fun h c a h' served => ?_) run
    refine Runs.request_iff.mpr ⟨opened, served.1, h', by simpa using served.2, ?_⟩
    funext i
    by_cases here : i = storeOf b <;> simp [here]
  have same : (fun i => if i = storeOf b then v (storeOf b) else v i) = v := by
    funext i
    split
    · next here => rw [here]
    · rfl
  rw [same] at one
  exact Runs.expand_iff.mpr one

theorem exists_provision (services : List String) (v : StoreId → Hub) : ∃ v',
    Runs (Gives storeOf w) (Node.Dispatch.provision s b services).run v (.ok ()) v' := by
  induction services generalizing v with
  | nil => exact ⟨v, rfl, rfl⟩
  | cons service rest ih =>
    obtain ⟨h', run⟩ := exists_ensureGroup w.now service s.config.group (v (storeOf b))
    obtain ⟨v', runs⟩ := ih _
    exact ⟨v', andThen (gives_broker storeOf opened run) runs⟩

theorem exists_scanServices (services : List String) (v : StoreId → Hub) : ∃ ts v',
    Runs (Gives storeOf w) (Node.Deferred.scanServices b services).run v (.ok ts) v' := by
  induction services generalizing v with
  | nil => exact ⟨[], v, rfl, rfl⟩
  | cons service rest ih =>
    obtain ⟨ts, v', runs⟩ := ih _
    have fields : Runs (Gives storeOf w) (Node.callOn b (.hashFields (Key.delay service))).run v
        (.ok _) _ := Runs.request_iff.mpr ⟨opened, nofun, _, rfl, rfl⟩
    exact ⟨_, v', andThen fields (andThen runs ⟨rfl, rfl⟩)⟩

end Ready

section Sources

variable {w : World} (s : Shared) {sources : List Source}
  (opened : ∀ source ∈ sources, (w.handles source.broker).closed = false)
include opened

theorem exists_provisionAll (v : StoreId → Hub) : ∃ served v',
    Runs (Gives storeOf w) (Node.provisionAll s sources).run v (.ok served) v' := by
  induction sources generalizing v with
  | nil => exact ⟨[], v, rfl, rfl⟩
  | cons source rest ih =>
    obtain ⟨first, others⟩ := List.forall_mem_cons.mp opened
    have listed : Runs (Gives storeOf w) (ExceptT.lift (Node.ask (.servicesOn source.name)) :
        Node.Attempt (List String)).run v (.ok (w.registry.servicesOn source.name)) v :=
      lifted (Runs.request_iff.mpr ⟨rfl, rfl⟩)
    cases empty : (w.registry.servicesOn source.name).isEmpty with
    | true =>
      obtain ⟨served, v', runs⟩ := ih others v
      refine ⟨served, v', andThen listed ?_⟩
      simp only [empty, if_true]
      exact runs
    | false =>
      obtain ⟨v₁, provisioned⟩ := exists_provision storeOf s first (w.registry.servicesOn source.name) v
      obtain ⟨served, v', runs⟩ := ih others v₁
      refine ⟨(source, w.registry.servicesOn source.name) :: served, v', andThen listed ?_⟩
      simp only [empty, Bool.false_eq_true, if_false]
      exact andThen provisioned (andThen runs ⟨rfl, rfl⟩)

theorem exists_scan (v : StoreId → Hub) : ∃ ts v',
    Runs (Gives storeOf w) (Node.Deferred.scan sources).run v (.ok ts) v' := by
  induction sources generalizing v with
  | nil => exact ⟨[], v, rfl, rfl⟩
  | cons source rest ih =>
    obtain ⟨first, others⟩ := List.forall_mem_cons.mp opened
    obtain ⟨ts, v₁, scanned⟩ := exists_scanServices storeOf first (w.registry.servicesOn source.name) v
    obtain ⟨more, v', runs⟩ := ih others v₁
    have listed : Runs (Gives storeOf w) (ExceptT.lift (Node.ask (.servicesOn source.name)) :
        Node.Attempt (List String)).run v (.ok (w.registry.servicesOn source.name)) v :=
      lifted (Runs.request_iff.mpr ⟨rfl, rfl⟩)
    exact ⟨_, v', andThen listed (andThen scanned (andThen runs ⟨rfl, rfl⟩))⟩

end Sources

theorem exists_startWorkers {w : World} {s : Shared}
    (opened : ∀ source ∈ s.sources, (w.handles source.broker).closed = false) (v : StoreId → Hub) :
    ∃ v', Runs (Gives storeOf w) (Node.startWorkers s).run v (.ok ()) v' := by
  obtain ⟨served, v₁, provisioned⟩ := exists_provisionAll storeOf s opened v
  obtain ⟨ts, v', scanned⟩ := exists_scan storeOf opened v₁
  have replaced : Runs (Gives storeOf w) (Node.access (.replace ts)).run v' (.ok _) v' :=
    lifted (Runs.request_iff.mpr ⟨rfl, rfl⟩)
  have subscribed : Runs (Gives storeOf w) (ExceptT.lift (Node.ask .subscribe) :
      Node.Attempt SignalId).run v' (.ok 0) v' := lifted (Runs.request_iff.mpr rfl)
  have clock : Runs (Gives storeOf w) (ExceptT.lift (Node.ask .clock) : Node.Attempt Nat).run v'
      (.ok w.now.clock) v' := lifted (Runs.request_iff.mpr ⟨rfl, rfl⟩)
  refine ⟨v', andThen provisioned (andThen (andThen scanned replaced) (andThen subscribed
    (andThen clock (lifted (Runs.request_iff.mpr rfl)))))⟩

structure Alike (w w' : World) : Prop where
  now : w'.now = w.now
  handles : w'.handles = w.handles
  registry : w'.registry = w.registry

variable {storeOf} {s : Shared} {w w₀ : World} {k : Nat} {j : Job} {tr : Trail}

theorem Alike.gives (alike : Alike w₀ w) {v v' : StoreId → Hub} {r : Effect} {a : r.Answer}
    (gives : Gives storeOf w₀ v r a v') : Gives storeOf w v r a v' := by
  unfold Gives at gives ⊢
  rw [alike.now, alike.handles, alike.registry]
  exact gives

theorem serves_of_gives {v : StoreId → Hub} {r : Effect} {a : r.Answer}
    (gives : Gives storeOf w w.stores r a v) : ∃ w₁, Serves s storeOf w r a w₁ ∧ w₁.stores = v ∧
      w₁.now = w.now ∧ w₁.handles = w.handles := by
  cases r with
  | broker b c =>
    obtain ⟨opened, stays, h, served, rfl⟩ := gives
    have served' : (w.handles b).serve (w.stores (storeOf b)) w.now w.now.clock c =
        some (a, w.handles b, h) := by
      cases c with
      | close => exact absurd rfl stays
      | _ => simp [Hub.Handle.serve, opened, served]
    exact ⟨_, .met (.call _ stays served'), rfl, rfl, rfl⟩
  | pending access =>
    cases access with
    | replace ts =>
      obtain ⟨rfl, rfl⟩ := gives
      exact ⟨_, .met (.pending _), rfl, rfl, rfl⟩
    | _ => exact gives.elim
  | servicesOn =>
    obtain ⟨rfl, rfl⟩ := gives
    exact ⟨_, .met (.servicesOn _), rfl, rfl, rfl⟩
  | clock =>
    obtain ⟨rfl, rfl⟩ := gives
    exact ⟨_, .met .clock, rfl, rfl, rfl⟩
  | subscribe =>
    obtain rfl := gives
    exact ⟨_, .met (.subscribe _), rfl, rfl, rfl⟩
  | launch =>
    obtain rfl := gives
    exact ⟨_, .met (.launch _), rfl, rfl, rfl⟩
  | _ => exact gives.elim

theorem exists_served_of_serves {r : Effect} {a : r.Answer} {next : r.Answer → Routine Ending}
    {w₁ : Shutdown.World} (here : w.tasks[k]? = some ⟨j, .ask r next, tr⟩)
    (serves : Serves s storeOf w r a w₁) : ∃ w', Step s storeOf w w' ∧
      w'.toWorld = w.toWorld.served ⟨s, w.registry⟩ w₁ k j tr r a (next a) ∧ w'.registry = w.registry ∧
        w'.tasks[k]? = some ⟨j, next a, ⟨r, a⟩ :: tr⟩ := by
  refine ⟨_, .serve (.intro (x := ⟨r, a⟩) here serves), rfl, rfl, ?_⟩
  have inside : k < w₁.tasks.length := serves.tasks ▸ (List.getElem?_eq_some_iff.mp here).1
  show (w₁.tasks.set k _ ++ _)[k]? = _
  rw [List.getElem?_append_left (by simpa using inside), List.getElem?_set_self inside]

theorem exists_later {α : Type} {p : Routine α} {f : α → Routine Ending} {a : α} {v : StoreId → Hub}
    (run : Runs (Gives storeOf w₀) p w.stores a v) (alike : Alike w₀ w)
    (here : w.tasks[k]? = some ⟨j, p >>= f, tr⟩) : ∃ w' tr', Later s storeOf w w' ∧ Alike w₀ w' ∧
      w'.tasks[k]? = some ⟨j, f a, tr'⟩ := by
  induction p generalizing w tr with
  | done b =>
    obtain ⟨rfl, -⟩ := run
    exact ⟨w, tr, .now, alike, here⟩
  | ask r next ih =>
    obtain ⟨x, v₁, gives, run⟩ := run
    obtain ⟨w₁, serves, stores, now, handles⟩ := serves_of_gives (s := s) (alike.gives gives)
    obtain ⟨w', step, same, registry, there⟩ := exists_served_of_serves here serves
    have after : w'.stores = v₁ := by
      rw [same]
      exact stores
    have alike' : Alike w₀ w' := by
      refine ⟨?_, ?_, registry.trans alike.registry⟩
      · rw [same]
        exact now.trans alike.now
      · rw [same]
        exact handles.trans alike.handles
    obtain ⟨w'', tr'', later, alike'', done⟩ := ih x (after ▸ run) alike' there
    exact ⟨w'', tr'', (Later.step .now step).trans later, alike'', done⟩

/-- What is left of a spawn once it has marked its node. -/
def settle : Except Error Unit → Routine Ending
  | .ok () => return .result .spawn (.ok ())
  | .error e => do
    Node.ask .releaseSpawn
    return .result .spawn (.error e)

theorem work_spawn (s : Shared) : ∃ next, (Job.operation .spawn).work s = .ask .claimSpawn next ∧
    next true = (Node.startWorkers s).run >>= settle := by
  refine ⟨_, rfl, ?_⟩
  show (((Node.startWorkers s).run.bind _).bind _).bind _ = (Node.startWorkers s).run.bind settle
  rw [Program.bind_assoc, Program.bind_assoc]
  congr 1
  funext r
  cases r <;> rfl

theorem exists_spawned (free : w.spawned = false)
    (opened : ∀ source ∈ s.sources, (w.handles source.broker).closed = false) : ∃ w' tr,
    Later s storeOf (w.requested s .spawn) w' ∧ w'.tasks[w.tasks.length]? =
      some ⟨.operation .spawn, .done (.result .spawn (.ok ())), tr⟩ := by
  obtain ⟨next, work, goes⟩ := work_spawn s
  have here : (w.requested s .spawn).tasks[w.tasks.length]? =
      some ⟨.operation .spawn, .ask .claimSpawn next, []⟩ := by
    show (w.tasks ++ [_])[w.tasks.length]? = _
    rw [List.getElem?_concat_length, ← work]
    rfl
  have claim : Serves s storeOf (w.requested s .spawn) .claimSpawn true
      { (w.requested s .spawn).toWorld with spawned := true } := by
    have claimed : Serves s storeOf (w.requested s .spawn) .claimSpawn (!w.spawned)
        { (w.requested s .spawn).toWorld with spawned := true } := .met .claimSpawn
    rwa [free] at claimed
  obtain ⟨w₁, step, same, registry, there⟩ := exists_served_of_serves here claim
  rw [goes] at there
  have alike : Alike w w₁ := ⟨by rw [same]; rfl, by rw [same]; rfl, registry⟩
  obtain ⟨v, run⟩ := exists_startWorkers storeOf (w := w) (s := s) opened w₁.stores
  obtain ⟨w', tr, later, -, came⟩ := exists_later run alike there
  exact ⟨w', tr, (Later.step .now step).trans later, came⟩

end BrokeredCalls.Lifetime
