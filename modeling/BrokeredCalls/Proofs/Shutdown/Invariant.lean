import BrokeredCalls.Proofs.Hub.Passing
import BrokeredCalls.Proofs.Shutdown.Order

/-!
What holds between the tasks of a node whatever they are asked to do and in whatever order they go on. At
most one spawn holds the mark of the node, and it launched the loops; so loops that are over stay over.
-/

namespace BrokeredCalls.Shutdown

open Broker (Call)
open Network
open Node (Effect Loop Routine)

structure World.Orderly (node : Setup) (w : World) : Prop where
  tasks : ∀ t ∈ w.tasks, t.Orderly node
  marked : ∀ t ∈ w.tasks, holds t.trail = true → w.spawned = true
  holder : ∀ (i k : Nat) (t u : Task), w.tasks[i]? = some t → w.tasks[k]? = some u →
    holds t.trail = true → holds u.trail = true → i = k
  launched : ∀ t ∈ w.tasks, t.IsLoop → ∃ u ∈ w.tasks, Replaced u.trail
  attended : ∀ t ∈ w.tasks, Replaced t.trail → ∀ d ∈ w.pending, node.Attends d.service
  started : ∀ t ∈ w.tasks, t.job = .operation .shutdown → Started w

def World.LoopsOver (w : World) : Prop := ∀ t ∈ w.tasks, t.IsLoop → t.work = .done .nothing

variable {node : Setup} {storeOf : BrokerId → StoreId} {w w₁ w' : World} {k : Nat} {j : Job}
  {tr : Trail} {r : Effect} {a : r.Answer} {next : r.Answer → Routine Ending}

inductive Marks (spawned spawned₁ : Bool) (tr tr₁ : Trail) : Prop
  | kept (same : holds tr₁ = holds tr) (kept : spawned₁ = spawned)
  | claimed (free : spawned = false) (marked : spawned₁ = true)
  | freed (held : holds tr = true) (free : holds tr₁ = false)

theorem serve_of_open {b b' : Hub.Handle} {h h' : Hub} {now : Moment} {deadline : Nat} {c : Call}
    {a : Except Error c.Value} (opened : b.closed = false) (stays : c ≠ .close)
    (hs : b.serve h now deadline c = some (a, b', h')) : h.serve now deadline c = some (a, h') := by
  cases c with
  | close => exact absurd rfl stays
  | _ =>
    simp only [Hub.Handle.serve, opened, Bool.false_eq_true, if_false] at hs
    obtain ⟨⟨a', k⟩, served, same⟩ := Option.map_eq_some_iff.mp hs
    cases same
    exact served

namespace Serves

theorem credible (serves : Serves node storeOf w r a w₁) {s : Node.Shared} (asked : Asked s j tr r)
    (other : j ≠ .operation .shutdown) : Credible r a := by
  cases serves with
  | @call b c a handle h deadline stays served =>
    cases a with
    | ok v => exact trivial
    | error e => exact Hub.Does.error (.inl ⟨_, _, deadline, served⟩)
  | close b a shuts =>
    obtain ⟨isShutdown, -⟩ : j = .operation .shutdown ∧ Joined tr := asked.permitted.requires
    exact absurd isShutdown other
  | _ => exact trivial

theorem proper (serves : Serves node storeOf w r a w₁) (recorded : w.Recorded storeOf)
    (lawful : Lawful node tr r)
    (attended : ∀ now, r = .pending (.next now) → ∀ d ∈ w.pending, node.Attends d.service) :
    Proper node r a := by
  cases serves with
  | @read b g consumer services count block stop a handle h deadline served =>
    cases a with
    | error e => exact trivial
    | ok ds =>
      intro d hd
      have does : Hub.Does (w.stores (storeOf b)) w.now
          (.call (.readGroup g consumer services count block)) (.ok ds) h :=
        .inl ⟨_, _, deadline, served⟩
      rw [Hub.service_of_read (recorded.stores _).wellformed does d hd]
      rcases Hub.took_of_read does with ⟨_, failed, -⟩ | ⟨_, answered, took⟩
      · cases failed
      · cases answered
        exact lawful d.queue (takeAll_queue took d hd)
  | pending access =>
    cases access with
    | next now =>
      show Proper node (.pending (.next now)) (w.pending.next now).1
      generalize looked : w.pending.next now = p
      obtain ⟨found, q⟩ := p
      cases found with
      | due t => exact attended now rfl t (TaskQueue.due_of_next looked).1
      | later | nothing => exact trivial
    | _ => exact trivial
  | resolve | servicesOn => rfl
  | _ => exact trivial

theorem sound (serves : Serves node storeOf w r a w₁) (opened : ∀ b, (w.handles b).closed = false)
    (proper : Proper node r a) : Sound node r a := by
  cases serves with
  | @call b c a handle h deadline stays served =>
    have answered := serve_of_open (opened b) stays served
    cases c with
    | acknowledge | hashSet | hashDelete => exact (Prod.mk.inj (Option.some.inj answered)).1.symm
    | hashTake => exact ⟨_, (Prod.mk.inj (Option.some.inj answered)).1.symm⟩
    | _ => exact trivial
  | pending access =>
    cases access with
    | next now =>
      change Proper node (.pending (.next now)) (w.pending.next now).1 at proper
      show Sound node (.pending (.next now)) (w.pending.next now).1
      generalize (w.pending.next now).1 = found at proper ⊢
      cases found <;> exact proper
    | _ => exact trivial
  | resolve => exact proper
  | _ => exact trivial

theorem marks (serves : Serves node storeOf w r a w₁) {s : Node.Shared} (asked : Asked s j tr r) :
    Marks w.spawned w₁.spawned tr (⟨r, a⟩ :: tr) := by
  cases serves with
  | claimSpawn =>
    cases spawned : w.spawned with
    | false => exact .claimed rfl rfl
    | true =>
      obtain rfl : tr = [] := asked.permitted.requires
      exact .kept rfl rfl
  | releaseSpawn => exact .freed asked.permitted.requires rfl
  | _ => exact .kept rfl rfl

theorem pending_cases (serves : Serves node storeOf w r a w₁) :
    w₁.pending = w.pending ∧ (∀ access, r ≠ .pending access) ∨
      ∃ access, r = .pending access ∧ w₁.pending = (access.run w.pending).2 := by
  cases serves with
  | pending access => exact .inr ⟨access, rfl, rfl⟩
  | _ => exact .inl ⟨rfl, nofun⟩

theorem handles_cases (serves : Serves node storeOf w r a w₁) {b : BrokerId}
    (closed : (w₁.handles b).closed = true) : (w.handles b).closed = true ∨ r = .broker b .close := by
  cases serves with
  | close b' a shuts =>
    by_cases same : b = b'
    · exact .inr (same ▸ rfl)
    · have kept : (w.shut b' shuts).handles b = w.handles b := if_neg same
      exact .inl (kept ▸ closed)
  | _ => exact .inl closed

theorem ended (serves : Serves node storeOf w r a w₁)
    (joins : (⟨.joinWorkers, ()⟩ : Exchange Node.interface) = ⟨r, a⟩) :
    w.LoopsOver ∨ w.Contested := by
  cases joins
  cases serves with
  | joinWorkers ended => exact .inl ended
  | unwaited contested => exact .inr contested

theorem attended {made : Prop} (serves : Serves node storeOf w r a w₁) (lawful : Lawful node tr r)
    (before : made → ∀ d ∈ w.pending, node.Attends d.service) (own : Replaced tr → made)
    (replaced : made ∨ Replaced (⟨r, a⟩ :: tr)) : ∀ d ∈ w₁.pending, node.Attends d.service := by
  have old (other : ∀ ts, r ≠ .pending (.replace ts)) : made := by
    rcases replaced with here | ⟨ts, n, mem⟩
    · exact here
    · have before := (List.mem_cons.mp mem).resolve_left fun now =>
        other ts (congrArg Sigma.fst now).symm
      exact own ⟨ts, n, before⟩
  rcases serves.pending_cases with ⟨same, other⟩ | ⟨access, rfl, run⟩
  · exact same ▸ before (old fun ts => other _)
  · rw [run]
    cases access with
    | replace ts => exact fun d hd => lawful.scanned d (TaskQueue.mem_ofList.mp hd)
    | _ => exact attends_of_access rfl lawful (before (old nofun))

end Serves

namespace World.Orderly

theorem fresh (fresh : w.Fresh) : w.Orderly node := by
  have none (t : Task) : t ∉ w.tasks := fresh.tasks ▸ List.not_mem_nil
  exact
    { tasks := fun t ht => absurd ht (none t)
      marked := fun t ht => absurd ht (none t)
      holder := fun i k t u ht => absurd (List.mem_of_getElem? ht) (none t)
      launched := fun t ht => absurd ht (none t)
      attended := fun t ht => absurd ht (none t)
      started := fun t ht => absurd ht (none t) }

variable (orderly : w.Orderly node)
include orderly

theorem congr (tasks : w'.tasks = w.tasks) (spawned : w'.spawned = w.spawned)
    (pending : w'.pending = w.pending) : w'.Orderly node := by
  obtain ⟨_, _, _, pending₁, spawned₁, _, tasks₁, _⟩ := w'
  cases tasks
  cases spawned
  cases pending
  exact ⟨orderly.tasks, orderly.marked, orderly.holder, orderly.launched, orderly.attended,
    orderly.started⟩

theorem fits (recorded : w.Recorded storeOf) (here : w.tasks[k]? = some ⟨j, .ask r next, tr⟩)
    (serves : Serves node storeOf w r a w₁) : Fits node j r a := by
  have mem := List.mem_of_getElem? here
  have task := orderly.tasks _ mem
  refine ⟨serves.credible task.asks, serves.proper recorded task.lawful fun now next => ?_⟩
  subst next
  obtain ⟨l, rfl⟩ := task.asks.loop_of_next
  obtain ⟨u, hu, replaced⟩ := orderly.launched _ mem ⟨l, rfl⟩
  exact orderly.attended u hu replaced

/-- A spawn that still has loops to launch holds the mark, so no other one came back well. -/
theorem not_started {loops : List Loop} {next : Unit → Routine Ending}
    (here : w.tasks[k]? = some ⟨j, .ask (.launch loops) next, tr⟩) : ¬ Started w := by
  rintro ⟨t, ht, isSpawn, came⟩
  obtain ⟨held, -⟩ : holds tr = true ∧ Replaced tr :=
    (orderly.tasks _ (List.mem_of_getElem? here)).asks.permitted.requires
  have held' : holds t.trail = true := by
    have concluded := (orderly.tasks t ht).lives.obeys
    rw [came, isSpawn] at concluded
    exact concluded
  obtain ⟨i, there⟩ := List.getElem?_of_mem ht
  obtain rfl := orderly.holder i k _ _ there here held' held
  obtain rfl := Option.some.inj (there.symm.trans here)
  cases came

theorem begin {jobs : List Job} (tasks : ∀ j ∈ jobs, (Task.begun node.shared j).Orderly node)
    (launched : ∀ l, .loop l ∈ jobs → ∃ u ∈ w.tasks, Replaced u.trail)
    (started : .operation .shutdown ∈ jobs → Started w) : (w.begin node jobs).Orderly node where
  tasks t ht := by
    rcases World.mem_begin ht with old | ⟨j, hj, rfl⟩
    · exact orderly.tasks t old
    · exact tasks j hj
  marked t ht held := by
    rcases World.mem_begin ht with old | ⟨j, hj, rfl⟩
    · exact orderly.marked t old held
    · cases held
  holder i k t u ht hu held held' := by
    rcases World.task_begin ht with ht | ⟨-, j, -, rfl⟩
    · rcases World.task_begin hu with hu | ⟨-, j, -, rfl⟩
      · exact orderly.holder i k t u ht hu held held'
      · cases held'
    · cases held
  launched t ht isLoop := by
    rcases World.mem_begin ht with old | ⟨j, hj, rfl⟩
    · exact World.exists_begin (orderly.launched t old isLoop)
    · obtain ⟨l, rfl⟩ : ∃ l, j = .loop l := isLoop
      exact World.exists_begin (launched l hj)
  attended t ht replaced := by
    rcases World.mem_begin ht with old | ⟨j, hj, rfl⟩
    · exact orderly.attended t old replaced
    · obtain ⟨_, _, mem⟩ := replaced
      cases mem
  started t ht isShutdown := by
    rcases World.mem_begin ht with old | ⟨j, hj, rfl⟩
    · exact World.exists_begin (orderly.started t old isShutdown)
    · obtain rfl : j = .operation .shutdown := isShutdown
      exact World.exists_begin (started hj)

section Put

variable {t u : Task}

theorem marked_put (here : w.tasks[k]? = some t) (same : w₁.tasks = w.tasks)
    (marks : Marks w.spawned w₁.spawned t.trail u.trail) {i : Nat} {v : Task}
    (hv : (w₁.put k u).tasks[i]? = some v) (held : holds v.trail = true) : w₁.spawned = true := by
  rcases World.task_put hv with ⟨-, rfl⟩ | ⟨other, old⟩
  · cases marks with
    | kept kept spawned =>
      exact spawned.trans (orderly.marked t (List.mem_of_getElem? here) (kept ▸ held))
    | claimed _ spawned => exact spawned
    | freed _ free => cases free.symm.trans held
  · have old := same ▸ old
    have marked := orderly.marked v (List.mem_of_getElem? old) held
    cases marks with
    | kept _ spawned => exact spawned.trans marked
    | claimed _ spawned => exact spawned
    | freed held' => exact absurd (orderly.holder i k v t old here held held') other

theorem holder_put (here : w.tasks[k]? = some t) (same : w₁.tasks = w.tasks)
    (marks : Marks w.spawned w₁.spawned t.trail u.trail) {i i' : Nat} {v v' : Task}
    (hv : (w₁.put k u).tasks[i]? = some v) (hv' : (w₁.put k u).tasks[i']? = some v')
    (held : holds v.trail = true) (held' : holds v'.trail = true) : i = i' := by
  have sole {i : Nat} {v : Task} (hv : w.tasks[i]? = some v) (held : holds v.trail = true)
      (goes : holds u.trail = true) : i = k := by
    cases marks with
    | kept kept => exact orderly.holder i k v t hv here held (kept ▸ goes)
    | claimed free => cases free.symm.trans (orderly.marked v (List.mem_of_getElem? hv) held)
    | freed _ free => cases free.symm.trans goes
  rcases World.task_put hv with ⟨rfl, rfl⟩ | ⟨-, old⟩
  · rcases World.task_put hv' with ⟨rfl, -⟩ | ⟨-, old'⟩
    · rfl
    · exact (sole (same ▸ old') held' held).symm
  · rcases World.task_put hv' with ⟨rfl, rfl⟩ | ⟨-, old'⟩
    · exact sole (same ▸ old) held held'
    · exact orderly.holder i i' v v' (same ▸ old) (same ▸ old') held held'

theorem put (here : w.tasks[k]? = some t) (same : w₁.tasks = w.tasks) (task : u.Orderly node)
    (job : u.job = t.job) (trail : t.trail <:+ u.trail)
    (unspawned : t.work ≠ .done (.result .spawn (.ok ())))
    (marks : Marks w.spawned w₁.spawned t.trail u.trail)
    (attended : (∃ v ∈ w.tasks, Replaced v.trail) ∨ Replaced u.trail →
      ∀ d ∈ w₁.pending, node.Attends d.service) : (w₁.put k u).Orderly node := by
  have mem := List.mem_of_getElem? here
  have cases_mem {v : Task} (hv : v ∈ (w₁.put k u).tasks) : v = u ∨ v ∈ w.tasks :=
    same ▸ World.mem_put hv
  have goes {P : Task → Prop} (on : P t → P u) (h : ∃ v ∈ w.tasks, P v) :
      ∃ v ∈ (w₁.put k u).tasks, P v := World.exists_put (same ▸ here) on (same ▸ h)
  refine ⟨fun v hv => ?_, fun v hv held => ?_, fun i i' v v' hv hv' => ?_, fun v hv isLoop => ?_,
    fun v hv replaced => attended ?_, fun v hv isShutdown => ?_⟩
  · rcases cases_mem hv with rfl | old
    · exact task
    · exact orderly.tasks v old
  · obtain ⟨i, there⟩ := List.getElem?_of_mem hv
    show w₁.spawned = true
    exact orderly.marked_put here same marks there held
  · exact orderly.holder_put here same marks hv hv'
  · refine goes (fun ⟨ts, n, h⟩ => ⟨ts, n, trail.subset h⟩) ?_
    rcases cases_mem hv with rfl | old
    · exact orderly.launched t mem (isLoop.imp fun l h => job.symm.trans h)
    · exact orderly.launched v old isLoop
  · rcases cases_mem hv with rfl | old
    · exact .inr replaced
    · exact .inl ⟨v, old, replaced⟩
  · refine goes (fun h => absurd h.2 unspawned) ?_
    rcases cases_mem hv with rfl | old
    · exact orderly.started t mem (job ▸ isShutdown)
    · exact orderly.started v old isShutdown

end Put

theorem put_again {l : Loop} (here : w.tasks[k]? = some ⟨j, .done (.again l), tr⟩) :
    (w.put k ⟨j, round node.shared l, tr⟩).Orderly node := by
  have mem := List.mem_of_getElem? here
  refine orderly.put here rfl (orderly.tasks _ mem).again rfl (List.suffix_refl tr) nofun
    (.kept rfl rfl) ?_
  rintro (⟨v, hv, replaced⟩ | replaced)
  · exact orderly.attended v hv replaced
  · exact orderly.attended _ mem replaced

theorem put_served (recorded : w.Recorded storeOf) (here : w.tasks[k]? = some ⟨j, .ask r next, tr⟩)
    (serves : Serves node storeOf w r a w₁) (doer : Option (Nat × Exchange Node.interface)) :
    ((w.note w₁ doer).put k ⟨j, next a, ⟨r, a⟩ :: tr⟩).Orderly node := by
  have mem := List.mem_of_getElem? here
  have task := orderly.tasks _ mem
  refine orderly.put here serves.tasks (task.answered (orderly.fits recorded here serves)) rfl
    (List.suffix_cons _ tr) nofun (serves.marks task.asks) fun replaced => ?_
  exact serves.attended task.lawful (fun ⟨v, hv, h⟩ => orderly.attended v hv h)
    (fun own => ⟨_, mem, own⟩) replaced

theorem launches {l : Loop} (here : w.tasks[k]? = some ⟨j, .ask r next, tr⟩)
    (mem : .loop l ∈ jobsOf r) : Replaced tr ∧ ∀ t ∈ w.tasks, ¬ Joined t.trail := by
  cases r with
  | start e => cases List.mem_singleton.mp mem
  | launch loops =>
    obtain ⟨-, replaced⟩ : holds tr = true ∧ Replaced tr :=
      (orderly.tasks _ (List.mem_of_getElem? here)).asks.permitted.requires
    refine ⟨replaced, fun t ht joined => orderly.not_started here (orderly.started t ht ?_)⟩
    obtain ⟨newer, older, split⟩ := List.append_of_mem joined
    exact ((orderly.tasks t ht).asked split).shutdown_of_join
  | _ => cases mem

theorem step (recorded : w.Recorded storeOf) (step : Step node storeOf w w') : w'.Orderly node := by
  cases step with
  | pass now later => exact orderly.congr rfl rfl rfl
  | outside i does => exact orderly.congr rfl rfl rfl
  | again here => exact orderly.put_again here
  | begin o alone up =>
    have only {P : Job → Prop} (h : P (.operation o)) : ∀ j ∈ [Job.operation o], P j :=
      List.forall_mem_singleton.mpr h
    refine orderly.begin (only (.begun (fun o' ho => ?_) fun s alters => ?_)) (fun l hl => ?_)
      fun hs => ?_
    · cases ho
      exact alone
    · cases alone.symm.trans alters
    · cases List.mem_singleton.mp hl
    · cases List.mem_singleton.mp hs
      exact up rfl
  | @serve _ k j tr r next a here serves =>
    have task := orderly.tasks _ (List.mem_of_getElem? here)
    refine (orderly.put_served recorded here serves _).begin task.jobs (fun l hl => ?_) fun hs => ?_
    · obtain ⟨ts, n, mem⟩ := (orderly.launches here hl).1
      refine ⟨_, List.mem_set ?_ _, ts, n, List.mem_cons_of_mem _ mem⟩
      exact serves.tasks ▸ (List.getElem?_eq_some_iff.mp here).1
    · obtain ⟨i, hi⟩ := List.getElem?_of_mem hs
      exact absurd hi not_operation_of_jobsOf

theorem loops_step (joined : ∃ t ∈ w.tasks, Joined t.trail) (finished : w.LoopsOver)
    (step : Step node storeOf w w') : (∃ t ∈ w'.tasks, Joined t.trail) ∧ ∀ (k : Nat) (t : Task),
      w'.tasks[k]? = some t → t.IsLoop → w.tasks[k]? = some t := by
  cases step with
  | pass now later => exact ⟨joined, fun k t ht _ => ht⟩
  | outside i does => exact ⟨joined, fun k t ht _ => ht⟩
  | again here =>
    have mem := List.mem_of_getElem? here
    have ended := finished _ mem (orderly.tasks _ mem).loop_of_again
    cases ended
  | begin o alone up =>
    refine ⟨World.exists_begin joined, fun k t ht isLoop => ?_⟩
    rcases World.task_begin ht with old | ⟨-, j, hj, rfl⟩
    · exact old
    · obtain rfl := List.mem_singleton.mp hj
      obtain ⟨l, isLoop⟩ := isLoop
      cases isLoop
  | @serve w₁ k j tr r next a here serves =>
    have there : w₁.tasks[k]? = some ⟨j, .ask r next, tr⟩ := serves.tasks.symm ▸ here
    have stays : ∃ t ∈ (w.served node w₁ k j tr r a (next a)).tasks, Joined t.trail :=
      World.exists_begin (World.exists_put (w := w.note w₁ _) there
        (fun waited => List.mem_cons_of_mem _ waited) (serves.tasks.symm ▸ joined))
    refine ⟨stays, fun i t ht isLoop => ?_⟩
    rcases World.task_begin ht with old | ⟨-, j', hj', rfl⟩
    · rcases World.task_put old with ⟨-, rfl⟩ | ⟨-, old⟩
      · have ended := finished _ (List.mem_of_getElem? here) isLoop
        cases ended
      · exact serves.tasks ▸ old
    · obtain ⟨l, rfl⟩ : ∃ l, j' = .loop l := isLoop
      obtain ⟨u, hu, waited⟩ := joined
      exact absurd waited ((orderly.launches here hj').2 u hu)

end World.Orderly

theorem Reachable.orderly (reachable : Reachable node storeOf w) : w.Orderly node := by
  induction reachable with
  | fresh fresh => exact .fresh fresh
  | step earlier step ih => exact ih.step earlier.recorded step

theorem Reachable.executed (reachable : Reachable node storeOf w) {t : Task} (mem : t ∈ w.tasks)
    {e : Node.Execution} {u : Unit} (starts : (⟨.start e, u⟩ : Exchange Node.interface) ∈ t.trail) :
    ∃ v ∈ w.tasks, v.job = .execution e := by
  induction reachable generalizing t with
  | fresh fresh =>
    rw [fresh.tasks] at mem
    cases mem
  | @step w w' earlier step ih =>
    cases step with
    | pass now later => exact ih mem starts
    | outside i does => exact ih mem starts
    | again here =>
      rcases World.mem_put mem with rfl | old
      · exact World.exists_put here id (ih (List.mem_of_getElem? here) starts)
      · exact World.exists_put here id (ih old starts)
    | begin o alone up =>
      rcases World.mem_begin mem with old | ⟨j, -, rfl⟩
      · exact World.exists_begin (ih old starts)
      · cases starts
    | @serve w₁ k j tr r next a here serves =>
      have there : w₁.tasks[k]? = some ⟨j, .ask r next, tr⟩ := serves.tasks.symm ▸ here
      have kept (h : ∃ v ∈ w.tasks, v.job = .execution e) :
          ∃ v ∈ (w.served node w₁ k j tr r a (next a)).tasks, v.job = .execution e :=
        World.exists_begin (World.exists_put (w := w.note w₁ _) there (fun h => h)
          (serves.tasks.symm ▸ h))
      rcases World.mem_begin mem with old | ⟨j, -, rfl⟩
      · rcases World.mem_put old with rfl | old
        · rcases List.mem_cons.mp starts with now | before
          · cases now
            exact ⟨_, List.mem_append_right _ List.mem_cons_self, rfl⟩
          · exact kept (ih (List.mem_of_getElem? here) before)
        · exact kept (ih (serves.tasks ▸ old) starts)
      · cases starts

end BrokeredCalls.Shutdown
