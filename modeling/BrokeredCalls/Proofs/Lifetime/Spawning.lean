import BrokeredCalls.Node.Builder
import BrokeredCalls.Proofs.Lifetime.Script
import BrokeredCalls.Proofs.Lifetime.Starting
import BrokeredCalls.Proofs.Lifetime.Undisturbed

/-!
However many spawns a node is asked for, and whatever becomes of the calls they make, one of them at most
launches loops. It is the one that holds the mark of the node, and one at a time holds it.
-/

namespace BrokeredCalls

namespace NodeBuilder

theorem firstRepeated_eq_none_iff {names seen : List String} :
    firstRepeated seen names = none ↔ names.Nodup ∧ ∀ n ∈ names, n ∉ seen := by
  induction names generalizing seen with
  | nil => exact ⟨fun _ => ⟨.nil, List.forall_mem_nil _⟩, fun _ => rfl⟩
  | cons n names ih =>
    unfold firstRepeated
    rw [List.nodup_cons, List.forall_mem_cons]
    split
    · next old => exact ⟨nofun, fun h => absurd old h.2.1⟩
    · next new =>
      rw [ih]
      constructor
      · rintro ⟨nodup, others⟩
        refine ⟨⟨fun again => others n again List.mem_cons_self, nodup⟩, new, fun m hm => ?_⟩
        exact fun old => others m hm (List.mem_cons_of_mem _ old)
      · rintro ⟨⟨first, nodup⟩, -, others⟩
        refine ⟨nodup, fun m hm seen => ?_⟩
        rcases List.mem_cons.mp seen with rfl | old
        · exact first hm
        · exact others m hm old

theorem check_eq_ok_iff {brokers sources : List String} : check brokers sources = .ok () ↔
    brokers ≠ [] ∧ brokers.Nodup ∧ ∀ source ∈ sources, source ∈ brokers := by
  unfold check
  split
  · next empty => exact ⟨nofun, fun ⟨given, _⟩ => absurd (List.isEmpty_iff.mp empty) given⟩
  · next given =>
    split
    · next n repeated =>
      refine ⟨nofun, fun ⟨_, nodup, _⟩ => ?_⟩
      rw [firstRepeated_eq_none_iff.mpr ⟨nodup, fun _ _ => List.not_mem_nil⟩] at repeated
      cases repeated
    · next none =>
      have nodup : brokers.Nodup := (firstRepeated_eq_none_iff.mp none).1
      split
      · next source missing =>
        refine ⟨nofun, fun ⟨_, _, covered⟩ => ?_⟩
        have absent : source ∉ brokers := by simpa using List.find?_some missing
        exact absurd (covered source (List.mem_of_find?_eq_some missing)) absent
      · next none =>
        refine ⟨fun _ => ⟨fun empty => given (List.isEmpty_iff.mpr empty), nodup, ?_⟩, fun _ => rfl⟩
        simpa using List.find?_eq_none.mp none

theorem nodup_of_check {brokers sources : List String} (ok : check brokers sources = .ok ()) :
    brokers.Nodup := (check_eq_ok_iff.mp ok).2.1

end NodeBuilder

namespace Lifetime

open Network (Credible Ending Job Operation Trail jobsOf)
open Node (Effect Loop Routine Shared Source)
open Program (Asks Obeys)
open Shutdown (Concluded Permitted StoreId Task holds lifecycle ordinary)

structure Built (s : Shared) : Prop where
  named : ∃ name : BrokerId → String, ∀ source ∈ s.sources, source.name = name source.broker
  checked : ∃ routed, NodeBuilder.check (s.sources.map (·.name)) routed = .ok ()

theorem Built.nodup {s : Shared} (built : Built s) : (s.sources.map (·.broker)).Nodup := by
  obtain ⟨name, named⟩ := built.named
  obtain ⟨routed, checked⟩ := built.checked
  have same : s.sources.map (·.name) = (s.sources.map (·.broker)).map name := by
    rw [List.map_map]
    exact List.map_congr_left named
  exact (same ▸ NodeBuilder.nodup_of_check checked).of_map name

def loop? : Job → Option Loop
  | .loop l => some l
  | _ => none

def loopsIn (tasks : List Task) : List Loop := (tasks.map (·.job)).filterMap loop?

def holders (tasks : List Task) : Nat := tasks.countP fun t => holds t.trail

def fires : Loop → Bool
  | .fire .. => true
  | .dispatch .. => false

def reads (b : BrokerId) : Loop → Bool
  | .fire .. => false
  | .dispatch b' .. => b' = b

variable {s : Shared} {storeOf : BrokerId → StoreId} {w w₁ w' : World} {i k : Nat} {t u : Task}
  {j : Job} {tr : Trail} {x : Exchange Node.interface} {r : Effect} {a : r.Answer}

theorem Serves.credible {w₁ : Shutdown.World} (serves : Serves s storeOf w r a w₁)
    (stays : ∀ b, r ≠ .broker b .close) : Credible r a := by
  have unheard {e : Error} (transport : e.isTransport = true) (failure : failure? e r = some a) :
      Credible r a := by
    cases r with
    | broker b c =>
      cases failure
      exact .inl transport
    | _ => exact trivial
  cases serves with
  | failed e transport failure | lost _ e transport failure => exact unheard transport failure
  | met serves =>
    cases serves with
    | @call b c a handle h deadline _ served =>
      cases a with
      | ok v => exact trivial
      | error e => exact Hub.Does.error (.inl ⟨_, _, deadline, served⟩)
    | close b => exact absurd rfl (stays b)
    | _ => exact trivial
  | _ => exact trivial

theorem disciplined_lifecycle : Disciplined s storeOf (fun _ => True) (lifecycle s) (Concluded s) where
  works _ _ alone := Shutdown.permitted_work alone
  again _ _ _ _ _ := Shutdown.permitted_round _ _
  credible _ _ _ := trivial

theorem disciplined_spawning : Disciplined s storeOf (· = .operation .spawn) (fun _ => spawning s)
    (fun _ tr v => ∃ r, v = .result .spawn r ∧ Returned s tr r) where
  works j its _ := by
    subst its
    exact .bind (returned_spawn.mono fun _ r returned => .done ⟨r, rfl, returned⟩)
  again _ _ _ its := nomatch its
  credible _ rule serves := serves.credible fun b closes => by
    subst closes
    cases rule with
    | work h => cases h

section Holding

theorem countP_set_add {p : Task → Bool} {l : List Task} (here : l[k]? = some t) :
    (l.set k u).countP p + (p t).toNat = l.countP p + (p u).toNat := by
  obtain ⟨inside, rfl⟩ := List.getElem?_eq_some_iff.mp here
  have counted : p l[k] = true → 0 < l.countP p := fun h =>
    List.countP_pos_iff.mpr ⟨_, List.getElem_mem inside, h⟩
  rw [List.countP_set inside]
  generalize l.countP p = n at counted ⊢
  cases hp : p l[k] <;> cases p u <;> simp_all <;>
    exact Nat.sub_add_cancel counted

theorem eq_of_countP {p : Task → Bool} {l : List Task} (one : l.countP p ≤ 1) (ht : l[i]? = some t)
    (hu : l[k]? = some u) (pt : p t = true) (pu : p u = true) : i = k := by
  have none {v : Task} {l : List Task} (first : p v = true) (one : (v :: l).countP p ≤ 1) :
      ∀ u ∈ l, p u ≠ true := by
    rw [List.countP_cons_of_pos first] at one
    exact List.countP_eq_zero.mp (Nat.le_zero.mp (Nat.le_of_succ_le_succ one))
  induction l generalizing i k with
  | nil => cases ht
  | cons v l ih =>
    cases i with
    | zero =>
      cases ht
      cases k with
      | zero => rfl
      | succ k => exact absurd pu (none pt one u (List.mem_of_getElem? hu))
    | succ i =>
      cases k with
      | zero =>
        cases hu
        exact absurd pt (none pu one t (List.mem_of_getElem? ht))
      | succ k =>
        have fewer : l.countP p ≤ (v :: l).countP p := (List.sublist_cons_self v l).countP_le
        exact congrArg Nat.succ (ih (Nat.le_trans fewer one) ht hu)

theorem claimed_of_holds (held : holds tr = true) :
    ∃ newer older, tr = newer ++ ⟨.claimSpawn, true⟩ :: older := by
  induction tr with
  | nil => cases held
  | cons x tr ih =>
    obtain ⟨r, a⟩ := x
    have older (held : holds tr = true) :
        ∃ newer older, (⟨r, a⟩ :: tr : Trail) = newer ++ ⟨.claimSpawn, true⟩ :: older := by
      obtain ⟨newer, older, rfl⟩ := ih held
      exact ⟨⟨r, a⟩ :: newer, older, rfl⟩
    cases r with
    | claimSpawn =>
      obtain rfl : a = true := held
      exact ⟨[], tr, rfl⟩
    | releaseSpawn => cases held
    | _ => exact older held

theorem Reachable.spawn_of_holds (reachable : Reachable s storeOf w) (here : w.tasks[k]? = some t)
    (held : holds t.trail = true) : t.job = .operation .spawn := by
  obtain ⟨newer, older, split⟩ := claimed_of_holds held
  have keeps := reachable.keeps disciplined_lifecycle here trivial
  have permitted : Permitted s.config.group older t.job .claimSpawn :=
    Shutdown.rule_of_conforms (split ▸ keeps.conforms)
  generalize t.job = j at permitted ⊢
  cases permitted with
  | operation _ h | execution h | loop h => cases h
  | claim => rfl

theorem Serves.marks {w₁ : Shutdown.World} (serves : Serves s storeOf w r a w₁) {g : String}
    (permitted : Permitted g tr j r) (marked : holds tr = true → w.spawned = true) :
    w₁.spawned.toNat + (holds tr).toNat = w.spawned.toNat + (holds (⟨r, a⟩ :: tr)).toNat := by
  have unheard {e : Error} (failure : failure? e r = some a) : holds (⟨r, a⟩ :: tr) = holds tr := by
    cases r with
    | broker | readUnlessStopped => rfl
    | _ => cases failure
  cases serves with
  | met serves =>
    cases serves with
    | claimSpawn =>
      obtain rfl : tr = [] := permitted.requires
      cases w.spawned <;> rfl
    | releaseSpawn =>
      have held : holds tr = true := permitted.requires
      simp [holds, held, marked held]
    | _ => rfl
  | failed _ _ failure => rw [unheard failure]
  | lost serves _ _ failure =>
    rw [unheard failure]
    cases serves with
    | call | read => rfl
    | _ => first | rfl | cases failure
  | _ => rfl

theorem Serves.claimed {a : Bool} {w₁ : Shutdown.World} (serves : Serves s storeOf w .claimSpawn a w₁) :
    a = !w.spawned := by
  cases serves.itself rfl
  rfl

theorem Serves.released {u : Unit} {w₁ : Shutdown.World}
    (serves : Serves s storeOf w .releaseSpawn u w₁) : w₁.spawned = false := by
  cases serves.itself rfl
  rfl

theorem Served.tasks_eq (served : Served s storeOf w k j tr x w') : ∃ next,
    w.tasks[k]? = some ⟨j, .ask x.1 next, tr⟩ ∧
      w'.tasks = w.tasks.set k ⟨j, next x.2, x :: tr⟩ ++ (jobsOf x.1).map (Task.begun s) := by
  cases served with
  | intro here serves =>
    refine ⟨_, here, ?_⟩
    rw [← serves.tasks]
    rfl

theorem Served.spawned {g : String} (served : Served s storeOf w k j tr x w')
    (permitted : Permitted g tr j x.1) (marked : holds tr = true → w.spawned = true) :
    w'.spawned.toNat + (holds tr).toNat = w.spawned.toNat + (holds (x :: tr)).toNat := by
  cases served with
  | intro _ serves => exact serves.marks permitted marked

theorem Reachable.permitted (reachable : Reachable s storeOf w)
    (served : Served s storeOf w k j tr x w') : Permitted s.config.group tr j x.1 := by
  obtain ⟨next, here⟩ := served.here
  exact (reachable.keeps disciplined_lifecycle here trivial).obeys.1

theorem holders_append (tasks : List Task) (jobs : List Job) :
    holders (tasks ++ jobs.map (Task.begun s)) = holders tasks := by
  have none : (jobs.map (Task.begun s)).countP (fun t => holds t.trail) = 0 := by
    refine List.countP_eq_zero.mpr fun t ht => ?_
    obtain ⟨j, -, rfl⟩ := List.mem_map.mp ht
    exact nofun
  rw [holders, List.countP_append, none]
  rfl

theorem Reachable.marked (reachable : Reachable s storeOf w) : holders w.tasks = w.spawned.toNat := by
  induction reachable with
  | fresh fresh =>
    rw [fresh.tasks, fresh.unspawned]
    rfl
  | @step w w' earlier step ih =>
    cases step with
    | pass | outside | register => exact ih
    | begin o => exact (holders_append w.tasks [.operation o]).trans ih
    | @again k l l' tr here =>
      have kept := countP_set_add (p := fun t => holds t.trail) (u := ⟨.loop l, Network.round s l', tr⟩) here
      exact (Nat.add_right_cancel kept).trans ih
    | @serve _ k j tr x served =>
      obtain ⟨next, here, tasks⟩ := served.tasks_eq
      have held : holds tr = true → w.spawned = true := fun held => by
        have some : 0 < holders w.tasks :=
          List.countP_pos_iff.mpr ⟨_, List.mem_of_getElem? here, held⟩
        cases spawned : w.spawned with
        | true => rfl
        | false =>
          rw [ih, spawned] at some
          cases some
      have marks := served.spawned (earlier.permitted served) held
      have count : holders (w.tasks.set k ⟨j, next x.2, x :: tr⟩) + (holds tr).toNat =
          holders w.tasks + (holds (x :: tr)).toNat := countP_set_add here
      rw [tasks, holders_append]
      omega

theorem Reachable.sole_holder (reachable : Reachable s storeOf w) (ht : w.tasks[i]? = some t)
    (hu : w.tasks[k]? = some u) (held : holds t.trail = true) (held' : holds u.trail = true) :
    i = k := by
  refine eq_of_countP (p := fun t => holds t.trail) ?_ ht hu held held'
  show holders w.tasks ≤ 1
  rw [reachable.marked]
  cases w.spawned <;> decide

end Holding

section Launching

theorem loopsIn_append (tasks : List Task) (jobs : List Job) :
    loopsIn (tasks ++ jobs.map (Task.begun s)) = loopsIn tasks ++ jobs.filterMap loop? := by
  have same : (jobs.map (Task.begun s)).map (·.job) = jobs := by
    rw [List.map_map]
    exact List.map_id _
  rw [loopsIn, List.map_append, List.filterMap_append, same]
  rfl

theorem loopsIn_set {tasks : List Task} (here : tasks[k]? = some t) (same : u.job = t.job) :
    loopsIn (tasks.set k u) = loopsIn tasks := by
  obtain ⟨inside, rfl⟩ := List.getElem?_eq_some_iff.mp here
  have jobs : (tasks.set k u).map (·.job) = tasks.map (·.job) := by
    rw [List.map_set, same, ← List.getElem_map (fun t : Task => t.job) (h := by simpa using inside)]
    exact List.set_getElem_self _
  rw [loopsIn, jobs]
  rfl

theorem filterMap_jobsOf_launch (loops : List Loop) : (jobsOf (.launch loops)).filterMap loop? = loops := by
  show (loops.map Job.loop).filterMap loop? = loops
  rw [List.filterMap_map]
  exact List.filterMap_some

theorem filterMap_jobsOf_other (other : ∀ loops, r ≠ .launch loops) : (jobsOf r).filterMap loop? = [] := by
  cases r with
  | launch loops => exact absurd rfl (other loops)
  | _ => rfl

structure Launching (s : Shared) (loops : List Loop) (t : Task) : Prop where
  held : holds t.trail = true
  launched : (⟨.launch loops, ()⟩ : Exchange Node.interface) ∈ t.trail
  arrayed : ∃ stop now served, (served.map Prod.fst).Sublist s.sources ∧
    loops = loopsOf stop now served

def Arrayed (s : Shared) (tasks : List Task) : Prop :=
  loopsIn tasks = [] ∨ ∃ t ∈ tasks, Launching s (loopsIn tasks) t

theorem Arrayed.carried {tasks tasks' : List Task} (arrayed : Arrayed s tasks)
    (same : loopsIn tasks' = loopsIn tasks)
    (goes : (∃ t ∈ tasks, Launching s (loopsIn tasks) t) → ∃ t ∈ tasks', Launching s (loopsIn tasks) t) :
    Arrayed s tasks' := by
  unfold Arrayed
  rw [same]
  exact Or.imp_right goes arrayed

theorem Launching.holds {loops : List Loop} {work : Routine Ending}
    (launching : Launching s loops ⟨j, work, tr⟩) (rule : Spawning s tr r) :
    holds (⟨r, a⟩ :: tr) = true := by
  have busy : ¬ Idle tr := fun idle => idle _ _ launching.launched
  cases rule with
  | claim first =>
    subst first
    cases launching.held
  | work h => exact (Shutdown.holds_of_ordinary h a).trans launching.held
  | release underway => exact absurd underway.idle busy
  | launch _ underway => exact absurd underway.idle busy

theorem Reachable.spawning (reachable : Reachable s storeOf w)
    (served : Served s storeOf w k (.operation .spawn) tr x w') : Spawning s tr x.1 := by
  obtain ⟨next, here⟩ := served.here
  exact (reachable.keeps disciplined_spawning here rfl).obeys.1

theorem Reachable.chosen (reachable : Reachable s storeOf w) {loops : List Loop} {u : Unit}
    (served : Served s storeOf w k j tr ⟨.launch loops, u⟩ w') :
    j = .operation .spawn ∧ Underway tr ∧ Chosen s tr loops := by
  obtain rfl : j = .operation .spawn := by
    cases reachable.permitted served with
    | operation _ h | execution h | loop h => cases h
    | launch => rfl
  cases reachable.spawning served with
  | work h => cases h
  | launch _ underway chosen => exact ⟨rfl, underway, chosen⟩

theorem Reachable.none_of_launch (reachable : Reachable s storeOf w) (arrayed : Arrayed s w.tasks)
    (here : w.tasks[k]? = some t) (underway : Underway t.trail) : loopsIn w.tasks = [] := by
  rcases arrayed with none | ⟨u, hu, launching⟩
  · exact none
  · obtain ⟨i, there⟩ := List.getElem?_of_mem hu
    obtain rfl := reachable.sole_holder there here launching.held underway.held
    obtain rfl := Option.some.inj (there.symm.trans here)
    exact absurd launching.launched (underway.idle _ _)

theorem Reachable.arrayed (reachable : Reachable s storeOf w) : Arrayed s w.tasks := by
  induction reachable with
  | fresh fresh =>
    left
    rw [fresh.tasks]
    rfl
  | @step w w' earlier step ih =>
    cases step with
    | pass | outside | register => exact ih
    | begin o =>
      refine ih.carried ((loopsIn_append w.tasks [.operation o]).trans (List.append_nil _)) ?_
      rintro ⟨t, mem, launching⟩
      exact ⟨t, List.mem_append_left _ mem, launching⟩
    | @again k l l' tr here =>
      refine ih.carried (loopsIn_set here rfl) ?_
      exact Shutdown.World.exists_put here fun launching => ⟨launching.1, launching.2, launching.3⟩
    | @serve _ k j tr x served =>
      obtain ⟨next, here, tasks⟩ := served.tasks_eq
      have loops : loopsIn w'.tasks = loopsIn w.tasks ++ (jobsOf x.1).filterMap loop? := by
        rw [tasks, loopsIn_append, loopsIn_set (u := ⟨j, next x.2, x :: tr⟩) here rfl]
      by_cases launches : ∃ loops, x.1 = .launch loops
      · obtain ⟨r, a⟩ := x
        obtain ⟨launched, rfl⟩ := launches
        obtain ⟨rfl, underway, stop, now, chosen, listed, rfl⟩ := earlier.chosen served
        rw [earlier.none_of_launch ih here underway, filterMap_jobsOf_launch, List.nil_append] at loops
        refine .inr ⟨⟨.operation .spawn, next a, ⟨_, a⟩ :: tr⟩, ?_, ?_⟩
        · rw [tasks]
          exact List.mem_append_left _ (List.mem_set (List.getElem?_eq_some_iff.mp here).1 _)
        · rw [loops]
          exact ⟨underway.held, List.mem_cons_self, stop, now, chosen, listed.among, rfl⟩
      · rw [filterMap_jobsOf_other fun loops h => launches ⟨loops, h⟩, List.append_nil] at loops
        refine ih.carried loops fun found => ?_
        rw [tasks]
        suffices kept : ∃ t ∈ w.tasks.set k ⟨j, next x.2, x :: tr⟩, Launching s (loopsIn w.tasks) t by
          obtain ⟨t, mem, launching⟩ := kept
          exact ⟨t, List.mem_append_left _ mem, launching⟩
        refine Shutdown.World.exists_put here (fun launching => ?_) found
        obtain rfl : j = .operation .spawn := earlier.spawn_of_holds here launching.held
        exact ⟨launching.holds (earlier.spawning served), List.mem_cons_of_mem _ launching.launched,
          launching.arrayed⟩

end Launching

section Results

/-- A spawn that is in progress or came back well. -/
def Engaged (t : Task) : Prop :=
  t.job = .operation .spawn ∧ (¬ t.Over ∨ t.work = .done (.result .spawn (.ok ())))

structure Returns (w w' : World) (k : Nat) (r : Except Error Unit) : Prop where
  before : ∀ t, w.tasks[k]? = some t → ¬ t.Over
  after : ∃ tr, w'.tasks[k]? = some ⟨.operation .spawn, .done (.result .spawn r), tr⟩

/-- As long as the brokers of a node are open, a spawn of it can come back well. -/
def Spawnable (s : Shared) (storeOf : BrokerId → StoreId) (w : World) : Prop :=
  (∀ source ∈ s.sources, (w.handles source.broker).closed = false) → ∃ w' tr,
    Later s storeOf (w.requested s .spawn) w' ∧
      w'.tasks[w.tasks.length]? = some ⟨.operation .spawn, .done (.result .spawn (.ok ())), tr⟩

structure SpawnsOnce (s : Shared) (storeOf : BrokerId → StoreId) (w : World) : Prop where
  once : w.tasks.countP Task.cameUp ≤ 1
  fires : (loopsIn w.tasks).countP fires ≤ 1
  dispatches : ∀ b, (loopsIn w.tasks).countP (reads b) ≤ 1
  launched : loopsIn w.tasks ≠ [] → ∃ t ∈ w.tasks, Engaged t ∧
    (⟨.launch (loopsIn w.tasks), ()⟩ : Exchange Node.interface) ∈ t.trail
  failed : ∀ t ∈ w.tasks, ∀ e, t.job = .operation .spawn → t.work = .done (.result .spawn (.error e)) →
    ∀ loops, (⟨.launch loops, ()⟩ : Exchange Node.interface) ∉ t.trail
  /-- Another spawn is why one is refused; one that fails otherwise leaves the node as it was. -/
  returns : ∀ w' k e, Step s storeOf w w' → Returns w w' k (.error e) →
    (e = .configConflict "node already spawned" ∧
        ∃ i t, i ≠ k ∧ w.tasks[i]? = some t ∧ Engaged t) ∨
      (∀ what, e ≠ .configConflict what) ∧ w'.spawned = false ∧ Spawnable s storeOf w'

theorem Returned.holds_of_ok {tr : Trail} {u : Unit} (returned : Returned s tr (.ok u)) :
    holds tr = true := by
  cases returned with
  | launched underway => exact underway.held

theorem Returned.idle {tr : Trail} {e : Error} (returned : Returned s tr (.error e)) : Idle tr := by
  cases returned with
  | refused => simp [Idle]
  | failed underway =>
    intro loops u mem
    rcases List.mem_cons.mp mem with now | before
    · cases now
    · exact underway.idle loops u before

theorem Returned.not_holds {tr : Trail} {e : Error} (returned : Returned s tr (.error e)) :
    holds tr = false := by
  cases returned <;> rfl

theorem countP_fires_loopsOf (stop : SignalId) (now : Nat) (served : List (Source × List String)) :
    (loopsOf stop now served).countP fires = 1 := by
  rw [loopsOf, List.countP_cons_of_pos rfl, List.countP_map]
  exact congrArg Nat.succ (List.countP_eq_zero.mpr fun _ _ => by simp [fires])

theorem countP_reads_loopsOf (b : BrokerId) (stop : SignalId) (now : Nat)
    (served : List (Source × List String)) :
    (loopsOf stop now served).countP (reads b) = (served.map (·.1.broker)).count b := by
  rw [loopsOf, List.countP_cons_of_neg (by simp [reads]), List.countP_map, List.count, List.countP_map]
  exact List.countP_congr fun p _ => by simp [reads]

variable (reachable : Reachable s storeOf w)
include reachable

theorem Reachable.returned (here : w.tasks[k]? = some t) (isSpawn : t.job = .operation .spawn)
    {v : Ending} (done : t.work = .done v) : ∃ r, v = .result .spawn r ∧ Returned s t.trail r := by
  have obeys := (reachable.keeps disciplined_spawning here isSpawn).obeys
  rw [done] at obeys
  exact obeys

theorem Reachable.engaged (here : w.tasks[k]? = some t) (held : holds t.trail = true) : Engaged t := by
  have isSpawn := reachable.spawn_of_holds here held
  refine ⟨isSpawn, ?_⟩
  by_cases ended : t.Over
  · obtain ⟨v, done⟩ := ended
    obtain ⟨r, rfl, returned⟩ := reachable.returned here isSpawn done
    cases r with
    | ok => exact .inr done
    | error e => cases returned.not_holds.symm.trans held
  · exact .inl ended

theorem Reachable.served_of_returns (step : Step s storeOf w w') {r : Except Error Unit}
    (returns : Returns w w' k r) : ∃ tr x, Served s storeOf w k (.operation .spawn) tr x w' ∧
      Returned s (x :: tr) r := by
  obtain ⟨tr', there⟩ := returns.after
  obtain ⟨r', same, returned⟩ := (reachable.step step).returned there rfl rfl
  cases same
  cases step.came there with
  | idle here => exact absurd ⟨_, rfl⟩ (returns.before _ here)
  | asked o _ begun => cases begun
  | started _ mem begun => cases begun
  | again here goes => cases goes
  | @served j tr x next served here goes =>
    injection goes with job work trail
    subst job trail
    exact ⟨tr, x, served, returned⟩

theorem Reachable.once : w.tasks.countP Task.cameUp ≤ 1 := by
  have held : ∀ t ∈ w.tasks, t.cameUp = true → holds t.trail = true := by
    intro t ht came
    obtain ⟨k, here⟩ := List.getElem?_of_mem ht
    obtain ⟨isSpawn, done⟩ := Task.cameUp_eq came
    obtain ⟨r, same, returned⟩ := reachable.returned here isSpawn done
    cases same
    exact returned.holds_of_ok
  have few : holders w.tasks ≤ 1 := by
    rw [reachable.marked]
    cases w.spawned <;> decide
  exact Nat.le_trans (List.countP_mono_left held) few

theorem Reachable.exists_engaged {tr : Trail} (served : Served s storeOf w k j tr ⟨.claimSpawn, false⟩ w')
    (first : tr = []) : ∃ i t, i ≠ k ∧ w.tasks[i]? = some t ∧ Engaged t := by
  have marked : w.spawned = true := by
    cases served with
    | intro _ serves => simpa using serves.claimed
  have some : 0 < holders w.tasks := by
    rw [reachable.marked, marked]
    decide
  obtain ⟨t, ht, held⟩ := List.countP_pos_iff.mp some
  obtain ⟨i, there⟩ := List.getElem?_of_mem ht
  refine ⟨i, t, ?_, there, reachable.engaged there held⟩
  rintro rfl
  obtain ⟨next, here⟩ := served.here
  obtain rfl := Option.some.inj (there.symm.trans here)
  subst first
  cases held

theorem Reachable.spawns_once (built : Built s) : SpawnsOnce s storeOf w where
  once := reachable.once
  fires := by
    rcases reachable.arrayed with none | ⟨t, -, launching⟩
    · rw [none]
      exact Nat.zero_le 1
    · obtain ⟨stop, now, served, -, same⟩ := launching.arrayed
      exact Nat.le_of_eq (same ▸ countP_fires_loopsOf stop now served)
  dispatches b := by
    rcases reachable.arrayed with none | ⟨t, -, launching⟩
    · rw [none]
      exact Nat.zero_le 1
    · obtain ⟨stop, now, served, among, same⟩ := launching.arrayed
      have nodup : (served.map (·.1.broker)).Nodup := by
        have := built.nodup.sublist (among.map (·.broker))
        rwa [List.map_map] at this
      rw [same, countP_reads_loopsOf]
      exact List.nodup_iff_count_le_one.mp nodup b
  launched some := by
    rcases reachable.arrayed with none | ⟨t, ht, launching⟩
    · exact absurd none some
    · obtain ⟨k, here⟩ := List.getElem?_of_mem ht
      exact ⟨t, ht, reachable.engaged here launching.held, launching.launched⟩
  failed t ht e isSpawn done := by
    obtain ⟨k, here⟩ := List.getElem?_of_mem ht
    obtain ⟨r, same, returned⟩ := reachable.returned here isSpawn done
    cases same
    exact fun loops => returned.idle loops ()
  returns w' k e step returns := by
    obtain ⟨tr, x, served, returned⟩ := reachable.served_of_returns step returns
    cases returned with
    | refused => exact .inl ⟨rfl, reachable.exists_engaged served rfl⟩
    | failed underway plain =>
      have free : w'.spawned = false := by
        cases served with
        | intro _ serves => exact serves.released
      exact .inr ⟨plain.not_conflict, free, exists_spawned free⟩

end Results

theorem built_pair : Built pair where
  named := by
    refine ⟨fun b => if b = 0 then "a" else "b", ?_⟩
    decide
  checked := ⟨["a"], rfl⟩

/-- A second spawn is refused while the first is at it, which then fails; a third one comes back well. -/
def retried : World :=
  (World.new hosting).play pair id <|
    .begin .spawn :: .begin .spawn :: turns 0 3 ++ turns 1 1 ++ .fail 0 :: turns 0 1 ++
      .begin .spawn :: turns 2 20

theorem spawns_once_retried : Reachable pair id retried ∧ Built pair ∧ SpawnsOnce pair id retried ∧
    retried.tasks.countP Task.cameUp = 1 ∧ (loopsIn retried.tasks).length = 2 := by
  have reachable : Reachable pair id retried := reachable_play ..
  exact ⟨reachable, built_pair, reachable.spawns_once built_pair, by decide +kernel, by decide +kernel⟩

end Lifetime
end BrokeredCalls
