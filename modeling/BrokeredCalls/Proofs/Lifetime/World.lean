import BrokeredCalls.Proofs.Shutdown.Order

/-!
A node over its whole life, on a registry that anybody may change at any time and with brokers that may
fail at any call. Besides, all that it runs side by side goes as it does in a node that is let be: one step
answers one request of one task. Nothing is assumed of who holds on to the node or of when it is shut down.
-/

namespace BrokeredCalls.Lifetime

open Network (Ending Job Operation Trail jobsOf round)
open Node (Effect Loop Routine Shared)
open Program (Obeys)
open Shutdown (Permitted StoreId Task lifecycle)

inductive Registration where
  | host (source service : String) (h : Handler)
  | elsewhere (service source : String)

def Registration.service : Registration → String
  | .host _ service _ | .elsewhere service _ => service

def Registration.apply (r : Registry) : Registration → Registry
  | .host source service h => r.register source service h
  | .elsewhere service source => r.route service source

structure World extends Shutdown.World where
  registry : Registry

def failure? (e : Error) : (r : Effect) → Option r.Answer
  | .broker _ _ => some (.error e)
  | .readUnlessStopped .. => some (.value (.error e))
  | _ => none

variable (s : Shared) (storeOf : BrokerId → StoreId)

def World.requested (w : World) (o : Operation) : World :=
  { w with toWorld := w.toWorld.begin ⟨s, w.registry⟩ [.operation o] }

inductive Serves (w : World) : (r : Effect) → r.Answer → Shutdown.World → Prop
  | met {r : Effect} {a : r.Answer} {w₁ : Shutdown.World}
    (serves : Shutdown.Serves ⟨s, w.registry⟩ storeOf w.toWorld r a w₁) : Serves w r a w₁
  /-- A request may be lost on its way, -/
  | failed {r : Effect} {a : r.Answer} (e : Error) (transport : e.isTransport = true)
    (failure : failure? e r = some a) : Serves w r a w.toWorld
  /-- and so may its answer. -/
  | lost {r : Effect} {v a : r.Answer} {w₁ : Shutdown.World}
    (serves : Shutdown.Serves ⟨s, w.registry⟩ storeOf w.toWorld r v w₁) (e : Error)
    (transport : e.isTransport = true) (failure : failure? e r = some a) : Serves w r a w₁
  /-- Loops that another shutdown waits for are not waited for again. -/
  | unwaited : Serves w .joinWorkers () w.toWorld
  /-- A wait ends once nobody holds the node any more. -/
  | abandonedRead {b : BrokerId} {g consumer : String} {services : List String} {count : Nat}
    {block : Duration} {stop : SignalId} :
    Serves w (.readUnlessStopped b g consumer services count block stop) .abandoned w.toWorld
  | abandonedPause {d : Duration} {stop : SignalId} :
    Serves w (.pauseUnlessStopped d stop) .abandoned w.toWorld

inductive Served (w : World) (k : Nat) (j : Job) (tr : Trail) (x : Exchange Node.interface) :
    World → Prop
  | intro {next : x.1.Answer → Routine Ending} {w₁ : Shutdown.World}
    (here : w.tasks[k]? = some ⟨j, .ask x.1 next, tr⟩) (serves : Serves s storeOf w x.1 x.2 w₁) :
    Served w k j tr x
      { w with toWorld := w.toWorld.served ⟨s, w.registry⟩ w₁ k j tr x.1 x.2 (next x.2) }

inductive Step : World → World → Prop
  | pass {w : World} (now : Moment) (later : w.now.clock ≤ now.clock) : Step w { w with now := now }
  | outside {w : World} (i : StoreId) {a : Hub.Action} {r : a.Result} {h : Hub}
    (does : Hub.Does (w.stores i) w.now a r h) :
    Step w { w with toWorld := w.toWorld.note (w.toWorld.store i h) none }
  | register {w : World} (c : Registration) : Step w { w with registry := c.apply w.registry }
  | begin {w : World} (o : Operation) (alone : o.alters = none) : Step w (w.requested s o)
  | serve {w w' : World} {k : Nat} {j : Job} {tr : Trail} {x : Exchange Node.interface}
    (served : Served s storeOf w k j tr x w') : Step w w'
  | again {w : World} {k : Nat} {l l' : Loop} {tr : Trail}
    (here : w.tasks[k]? = some ⟨.loop l, .done (.again l'), tr⟩) :
    Step w { w with toWorld := w.toWorld.put k ⟨.loop l, round s l', tr⟩ }

inductive Reachable : World → Prop
  | fresh {w : World} (fresh : w.toWorld.Fresh) : Reachable w
  | step {w w' : World} (earlier : Reachable w) (step : Step s storeOf w w') : Reachable w'

inductive Later (w : World) : World → Prop
  | now : Later w w
  | step {w₁ w' : World} (later : Later w w₁) (step : Step s storeOf w₁ w') : Later w w'

inductive Came (w : World) (k : Nat) (t : Task) (w' : World) : Prop
  | idle (here : w.tasks[k]? = some t)
  | asked (o : Operation) (alone : o.alters = none) (begun : t = .begun s (.operation o))
    (new : w.tasks.length ≤ k)
  | started {i : Nat} {j j' : Job} {tr : Trail} {x : Exchange Node.interface}
    (served : Served s storeOf w i j tr x w') (mem : j' ∈ jobsOf x.1) (begun : t = .begun s j')
    (new : w.tasks.length ≤ k)
  | served {j : Job} {tr : Trail} {x : Exchange Node.interface} {next : x.1.Answer → Routine Ending}
    (served : Served s storeOf w k j tr x w') (here : w.tasks[k]? = some ⟨j, .ask x.1 next, tr⟩)
    (goes : t = ⟨j, next x.2, x :: tr⟩)
  | again {l l' : Loop} {tr : Trail} (here : w.tasks[k]? = some ⟨.loop l, .done (.again l'), tr⟩)
    (goes : t = ⟨.loop l, round s l', tr⟩)

variable {s : Shared} {storeOf : BrokerId → StoreId} {w w₁ w' : World} {i k : Nat} {t t' : Task}
  {j : Job} {tr newer older : Trail} {x : Exchange Node.interface}

theorem Serves.tasks {r : Effect} {a : r.Answer} {w₁ : Shutdown.World}
    (serves : Serves s storeOf w r a w₁) : w₁.tasks = w.tasks := by
  cases serves with
  | met serves | lost serves => exact serves.tasks
  | _ => rfl

def answersItself : Effect → Bool
  | .resolve _ | .servicesOn _ | .claimSpawn | .releaseSpawn => true
  | _ => false

theorem Serves.itself {r : Effect} {a : r.Answer} {w₁ : Shutdown.World}
    (serves : Serves s storeOf w r a w₁) (h : answersItself r = true) :
    Shutdown.Serves ⟨s, w.registry⟩ storeOf w.toWorld r a w₁ := by
  cases serves with
  | met serves => exact serves
  | failed _ _ failure | lost _ _ _ failure =>
    cases r with
    | broker | readUnlessStopped => cases h
    | _ => cases failure
  | _ => cases h

theorem Served.registry (served : Served s storeOf w k j tr x w') : w'.registry = w.registry := by
  cases served
  rfl

theorem Served.here (served : Served s storeOf w k j tr x w') :
    ∃ next, w.tasks[k]? = some ⟨j, .ask x.1 next, tr⟩ := by
  cases served with
  | intro here => exact ⟨_, here⟩

theorem Served.came (served : Served s storeOf w i j tr x w') (there : w'.tasks[k]? = some t) :
    Came s storeOf w k t w' := by
  cases served with
  | @intro next w₁ here serves =>
    have served := Served.intro here serves
    rcases Shutdown.World.task_begin there with old | ⟨new, j', mem, begun⟩
    · rcases Shutdown.World.task_put old with ⟨rfl, goes⟩ | ⟨-, old⟩
      · exact .served served here goes
      · exact .idle (serves.tasks ▸ old)
    · refine .started served mem begun ?_
      simpa [Shutdown.World.put, Shutdown.World.note, serves.tasks] using new

theorem Step.came (step : Step s storeOf w w') (there : w'.tasks[k]? = some t) :
    Came s storeOf w k t w' := by
  cases step with
  | pass | outside | register => exact .idle there
  | begin o alone =>
    rcases Shutdown.World.task_begin there with old | ⟨new, j, mem, begun⟩
    · exact .idle old
    · obtain rfl := List.mem_singleton.mp mem
      exact .asked o alone begun new
  | serve served => exact served.came there
  | again here =>
    rcases Shutdown.World.task_put there with ⟨rfl, goes⟩ | ⟨-, old⟩
    · exact .again here goes
    · exact .idle old

theorem Later.trans (later : Later s storeOf w w₁) (later' : Later s storeOf w₁ w') :
    Later s storeOf w w' := by
  induction later' with
  | now => exact later
  | step _ step ih => exact .step ih step

theorem Reachable.later (reachable : Reachable s storeOf w) (later : Later s storeOf w w') :
    Reachable s storeOf w' := by
  induction later with
  | now => exact reachable
  | step _ step ih => exact .step ih step

theorem Step.tasks_le (step : Step s storeOf w w') : w.tasks.length ≤ w'.tasks.length := by
  cases step with
  | pass | outside | register => exact Nat.le_refl _
  | begin => simp [World.requested, Shutdown.World.begin]
  | again => simp [Shutdown.World.put]
  | serve served =>
    cases served with
    | intro _ serves =>
      simp [Shutdown.World.served, Shutdown.World.begin, Shutdown.World.put, Shutdown.World.note, serves.tasks]

theorem Later.tasks_le (later : Later s storeOf w w') : w.tasks.length ≤ w'.tasks.length := by
  induction later with
  | now => exact Nat.le_refl _
  | step _ step ih => exact Nat.le_trans ih step.tasks_le

variable (s storeOf) in
structure Disciplined (mine : Job → Prop) (K : Job → Conduct Node.interface)
    (post : Job → Trail → Ending → Prop) : Prop where
  works : ∀ j, mine j → (∀ o, j = .operation o → o.alters = none) →
    Obeys (K j) (post j) [] (j.work s)
  again : ∀ l l' tr, mine (.loop l) → post (.loop l) tr (.again l') →
    Obeys (K (.loop l)) (post (.loop l)) tr (round s l')
  credible : ∀ {w : World} {j : Job} {tr : Trail} {r : Effect} {a : r.Answer} {w₁ : Shutdown.World},
    mine j → (K j).rule tr r → Serves s storeOf w r a w₁ → (K j).credible r a

theorem operation_not_mem_jobsOf {o : Operation} {r : Effect} : .operation o ∉ jobsOf r := by
  intro mem
  obtain ⟨i, hi⟩ := List.getElem?_of_mem mem
  exact Network.not_operation_of_jobsOf hi

theorem loop_mem_jobsOf {l : Loop} {r : Effect} (mem : .loop l ∈ jobsOf r) :
    ∃ loops, r = .launch loops ∧ l ∈ loops := by
  cases r with
  | start e => cases List.mem_singleton.mp mem
  | launch loops =>
    obtain ⟨l', here, same⟩ := List.mem_map.mp mem
    cases same
    exact ⟨loops, rfl, here⟩
  | _ => cases mem

theorem Reachable.keeps {mine : Job → Prop} {K : Job → Conduct Node.interface}
    {post : Job → Trail → Ending → Prop} (disciplined : Disciplined s storeOf mine K post)
    (reachable : Reachable s storeOf w) (there : w.tasks[k]? = some t) (its : mine t.job) :
    t.Keeps (K t.job) (post t.job) := by
  induction reachable generalizing k t with
  | fresh fresh =>
    rw [fresh.tasks] at there
    cases there
  | step _ step ih =>
    cases step.came there with
    | idle here => exact ih here its
    | asked o alone begun =>
      subst begun
      refine ⟨disciplined.works _ its fun o' same => ?_, trivial⟩
      cases same
      exact alone
    | started _ mem begun =>
      subst begun
      refine ⟨disciplined.works _ its fun o same => ?_, trivial⟩
      subst same
      exact absurd mem operation_not_mem_jobsOf
    | again here goes =>
      subst goes
      have keeps := ih here its
      exact ⟨disciplined.again _ _ _ its keeps.obeys, keeps.conforms⟩
    | served served here goes =>
      subst goes
      have keeps := ih here its
      cases served with
      | intro _ serves => exact keeps.answered (disciplined.credible its keeps.obeys.1 serves)

theorem Reachable.exists_launch (reachable : Reachable s storeOf w) (there : w.tasks[k]? = some t)
    {l : Loop} (isLoop : t.job = .loop l) : ∃ w₀ w₁ i j tr loops, Reachable s storeOf w₀ ∧
      Served s storeOf w₀ i j tr ⟨.launch loops, ()⟩ w₁ ∧ l ∈ loops ∧ Later s storeOf w₁ w := by
  induction reachable generalizing k t with
  | fresh fresh =>
    rw [fresh.tasks] at there
    cases there
  | @step w w' earlier step ih =>
    have before {u : Task} (here : w.tasks[k]? = some u) (same : u.job = .loop l) :
        ∃ w₀ w₁ i j tr loops, Reachable s storeOf w₀ ∧
          Served s storeOf w₀ i j tr ⟨.launch loops, ()⟩ w₁ ∧ l ∈ loops ∧ Later s storeOf w₁ w' := by
      obtain ⟨w₀, w₁, i, j, tr, loops, reachable, served, mem, later⟩ := ih here same
      exact ⟨w₀, w₁, i, j, tr, loops, reachable, served, mem, later.step step⟩
    cases step.came there with
    | idle here => exact before here isLoop
    | asked o alone begun =>
      subst begun
      cases isLoop
    | @started i j j' tr x served mem begun =>
      subst begun
      obtain rfl : j' = .loop l := isLoop
      obtain ⟨r, a⟩ := x
      obtain ⟨loops, rfl, here⟩ := loop_mem_jobsOf mem
      exact ⟨w, w', i, j, tr, loops, earlier, served, here, .now⟩
    | served _ here goes | again here goes =>
      subst goes
      exact before here isLoop

theorem Reachable.exists_served (reachable : Reachable s storeOf w) (there : w.tasks[k]? = some t)
    (split : t.trail = newer ++ x :: older) : ∃ w₀ w₁, Reachable s storeOf w₀ ∧
      Served s storeOf w₀ k t.job older x w₁ ∧ Later s storeOf w₁ w := by
  induction reachable generalizing t newer with
  | fresh fresh =>
    rw [fresh.tasks] at there
    cases there
  | @step w w' earlier step ih =>
    have before {u : Task} {newer : Trail} (here : w.tasks[k]? = some u) (same : u.job = t.job)
        (split : u.trail = newer ++ x :: older) : ∃ w₀ w₁, Reachable s storeOf w₀ ∧
          Served s storeOf w₀ k t.job older x w₁ ∧ Later s storeOf w₁ w' := by
      obtain ⟨w₀, w₁, reachable, served, later⟩ := ih here split
      exact ⟨w₀, w₁, reachable, same ▸ served, later.step step⟩
    cases step.came there with
    | idle here => exact before here rfl split
    | asked o _ begun | started _ _ begun =>
      subst begun
      cases newer <;> cases split
    | again here goes =>
      subst goes
      exact before here rfl split
    | served served here goes =>
      subst goes
      cases newer with
      | nil =>
        obtain ⟨rfl, rfl⟩ := List.cons.inj split
        exact ⟨w, w', earlier, served, .now⟩
      | cons y newer => exact before here rfl (List.cons.inj split).2

theorem Later.exists_served (later : Later s storeOf w w') (here : w.tasks[k]? = some t)
    (there : w'.tasks[k]? = some t') : t'.job = t.job ∧ ∃ since, t'.trail = since ++ t.trail ∧
      ∀ newer x older, since = newer ++ x :: older → ∃ w₀ w₁, Later s storeOf w w₀ ∧
        Served s storeOf w₀ k t.job (older ++ t.trail) x w₁ ∧ Later s storeOf w₁ w' := by
  induction later generalizing t' with
  | now =>
    obtain rfl := Option.some.inj (here.symm.trans there)
    refine ⟨rfl, [], rfl, fun newer x older split => ?_⟩
    cases newer <;> cases split
  | @step w₁ w' later step ih =>
    have before {u : Task} (here' : w₁.tasks[k]? = some u) (job : u.job = t'.job)
        (trail : u.trail = t'.trail) : t'.job = t.job ∧ ∃ since, t'.trail = since ++ t.trail ∧
          ∀ newer x older, since = newer ++ x :: older → ∃ w₀ w₁, Later s storeOf w w₀ ∧
            Served s storeOf w₀ k t.job (older ++ t.trail) x w₁ ∧ Later s storeOf w₁ w' := by
      obtain ⟨same, since, grown, moments⟩ := ih here'
      refine ⟨job ▸ same, since, trail ▸ grown, fun newer x older split => ?_⟩
      obtain ⟨v₀, v₁, first, served, last⟩ := moments newer x older split
      exact ⟨v₀, v₁, first, served, last.step step⟩
    have inside : k < w₁.tasks.length :=
      Nat.lt_of_lt_of_le (List.getElem?_eq_some_iff.mp here).1 later.tasks_le
    cases step.came there with
    | idle here' => exact before here' rfl rfl
    | asked _ _ _ new | started _ _ _ new => exact absurd inside (Nat.not_lt.mpr new)
    | again here' goes =>
      subst goes
      exact before here' rfl rfl
    | served served here' goes =>
      subst goes
      obtain ⟨rfl, since, rfl, moments⟩ := ih here'
      refine ⟨rfl, _ :: since, rfl, fun newer x older split => ?_⟩
      cases newer with
      | nil =>
        obtain ⟨rfl, rfl⟩ := List.cons.inj split
        exact ⟨w₁, w', later, served, .now⟩
      | cons y newer =>
        obtain ⟨v₀, v₁, first, served, last⟩ := moments newer x older (List.cons.inj split).2
        exact ⟨v₀, v₁, first, served, last.step step⟩

end BrokeredCalls.Lifetime
