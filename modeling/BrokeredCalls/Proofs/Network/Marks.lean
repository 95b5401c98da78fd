import BrokeredCalls.Proofs.Network.Executions
import BrokeredCalls.Proofs.Shutdown.Lifecycle

/-!
The mark of a spawn. A spawn that set the mark launches its loops once, the fire loop first, and never
takes the mark back after that. So a node whose mark is honoured has one fire loop.
-/

namespace BrokeredCalls.Network

open Node (Effect Loop Routine)
open Program (Asks Obeys)
open Shutdown (Ordinary holds ordinary)

variable {net : NodeId → Setup} {S : State} {H : List Event} {s : Node.Shared} {tr : Trail}
  {u v : TaskId} {n : NodeId} {i j k : Nat}

def marks : Effect → Bool
  | .claimSpawn | .releaseSpawn | .launch _ => true
  | _ => false

def Unlaunched (tr : Trail) : Prop :=
  ∀ loops a, (⟨.launch loops, a⟩ : Exchange Node.interface) ∉ tr

def FireFirst (loops : List Loop) : Prop :=
  ∃ stop last dispatching, loops = .fire stop last :: dispatching ∧
    ∀ l ∈ dispatching, ∃ b consumer services stop, l = .dispatch b consumer services stop

inductive Spawning (tr : Trail) : Effect → Prop
  | claim (first : tr = []) : Spawning tr .claimSpawn
  | release (held : holds tr = true) (unlaunched : Unlaunched tr) : Spawning tr .releaseSpawn
  | launch (loops : List Loop) (held : holds tr = true) (unlaunched : Unlaunched tr)
    (fireFirst : FireFirst loops) : Spawning tr (.launch loops)

def Marking (j : Job) (tr : Trail) (r : Effect) : Prop :=
  marks r = true → j = .operation .spawn ∧ Spawning tr r

section Programs

theorem marks_of_ordinary {r : Effect} (h : ordinary r = true) : marks r = false := by
  cases r with
  | claimSpawn | releaseSpawn | launch => cases h
  | _ => rfl

theorem Marking.of_unmarked {j : Job} {r : Effect} (h : marks r = false) : Marking j tr r := by
  intro marked
  rw [h] at marked
  cases marked

theorem unmarked_ordinary {α : Type} {p : Routine α} (h : Ordinary p) :
    Asks (fun r => marks r = false) p := h.mono fun _ => marks_of_ordinary

theorem unmarked_operation {o : Operation} (other : o ≠ .spawn) :
    Asks (fun r => marks r = false) (o.routine s) := by
  cases o with
  | add b service t payload =>
    exact .bindExcept (.request rfl) fun _ => .bindExcept (.lift (.request rfl)) fun _ => trivial
  | remove b service t => exact .bindExcept (.lift (.request rfl)) fun _ => .request rfl
  | spawn => exact absurd rfl other
  | shutdown =>
    refine .bind (.request rfl) fun _ => .bind (.request rfl) fun _ => ?_
    induction s.sources with
    | nil => exact trivial
    | cons source rest ih => exact .bind (.request rfl) fun _ => ih
  | _ => exact unmarked_ordinary (Shutdown.ordinary_operation rfl nofun nofun)

structure Poised (tr : Trail) : Prop where
  held : holds tr = true
  unlaunched : Unlaunched tr

theorem Poised.ordinary {r : Effect} (poised : Poised tr) (h : ordinary r = true) (a : r.Answer) :
    Poised (⟨r, a⟩ :: tr) where
  held := (Shutdown.holds_of_ordinary h a).trans poised.held
  unlaunched loops b hm := by
    rcases List.mem_cons.mp hm with heq | hm
    · cases heq
      cases h
    · exact poised.unlaunched loops b hm

abbrev spawnConduct : Conduct Node.interface := ⟨Credible, Marking (.operation .spawn)⟩

theorem marking_ordinary {α : Type} {p : Routine α} (h : Ordinary p) (poised : Poised tr) :
    Obeys spawnConduct (fun tr _ => Poised tr) tr p :=
  h.obeys (fun _ _ _ h => .of_unmarked (marks_of_ordinary h)) (fun _ _ a poised h => poised.ordinary h a)
    poised

theorem marking_startWorkers (poised : Poised tr) :
    Obeys spawnConduct (fun tr r => ∀ e, r = .error e → Poised tr) tr (Node.startWorkers s).run := by
  refine .bindExcept ((marking_ordinary (Shutdown.ordinary_provisionAll s.sources) poised).mono
    fun tr r poised => ?_)
  cases r with
  | error e => exact fun _ _ => poised
  | ok served =>
    refine .bindExcept ((marking_ordinary Shutdown.ordinary_reload poised).mono fun tr r poised => ?_)
    cases r with
    | error e => exact fun _ _ => poised
    | ok count =>
      refine .bindExcept (.lift (.request (.of_unmarked rfl) fun stop _ => ?_))
      have poised₁ := poised.ordinary (r := .subscribe) rfl stop
      refine .bindExcept (.lift (.request (.of_unmarked rfl) fun now _ => ?_))
      have poised₂ := poised₁.ordinary (r := .clock) rfl now
      refine .lift (.request (fun _ => ⟨rfl, .launch _ poised₂.held poised₂.unlaunched ?_⟩)
        fun _ _ => nofun)
      refine ⟨stop, now, _, rfl, fun l hl => ?_⟩
      obtain ⟨⟨source, services⟩, -, rfl⟩ := List.mem_map.mp hl
      exact ⟨source.broker, source.consumer, services, stop, rfl⟩

theorem marking_spawn : Obeys spawnConduct (fun _ _ => True) [] (Node.spawn s).run := by
  refine .bindExcept (.lift (.request (fun _ => ⟨rfl, .claim rfl⟩) fun claimed _ => ?_))
  cases claimed with
  | false => exact trivial
  | true =>
    have poised : Poised [⟨.claimSpawn, true⟩] := ⟨rfl, by simp [Unlaunched]⟩
    refine .bindExcept (.lift ((marking_startWorkers poised).mono fun tr r left => ?_))
    cases r with
    | ok _ => exact trivial
    | error e =>
      have poised₁ := left e rfl
      exact .bindExcept (.lift (.request (fun _ => ⟨rfl, .release poised₁.held poised₁.unlaunched⟩)
        fun _ _ => trivial))

theorem unmarked_round (l : Loop) : Asks (fun r => marks r = false) (round s l) :=
  (Shutdown.looping_round l).mono fun _ h => marks_of_ordinary h.1

theorem marking_work (j : Job) :
    Obeys ⟨Credible, Marking j⟩ (fun _ _ => True) [] (j.work s) := by
  cases j with
  | loop l => exact trivial
  | execution e =>
    exact .bind (((unmarked_ordinary (Shutdown.ordinary_routine e)).allowed
      fun _ _ => Marking.of_unmarked).mono fun _ _ _ => trivial)
  | operation o =>
    by_cases spawn : o = .spawn
    · subst spawn
      exact .bind (marking_spawn.mono fun _ _ _ => trivial)
    · exact .bind (((unmarked_operation spawn).allowed fun _ _ => Marking.of_unmarked).mono
        fun _ _ _ => trivial)

def marking (net : NodeId → Setup) : Discipline net where
  rule _ := Marking
  ending _ _ _ _ := True
  works _ := marking_work
  again _ _ _ l _ := (unmarked_round l).allowed fun _ _ => Marking.of_unmarked

end Programs

/-- The mark that `u` set in event `i` was not taken away before event `k`. -/
structure Keeps (H : List Event) (u : TaskId) (i k : Nat) : Prop where
  set : At H i (.served u .claimSpawn true)
  before : i < k
  kept : ∀ m a, i < m → m < k → ¬ At H m (.served u .releaseSpawn a)

theorem Keeps.earlier (h : Keeps H u i k) (hij : i < j) (hjk : j ≤ k) : Keeps H u i j :=
  ⟨h.set, hij, fun m a him hmj => h.kept m a him (Nat.lt_of_lt_of_le hmj hjk)⟩

theorem exists_keeps (h : holds (traceOf u H) = true) : ∃ i, Keeps H u i H.length := by
  induction H with
  | nil => cases h
  | cons e H ih =>
    have old (hold : holds (traceOf u H) = true) (stays : ∀ a, e ≠ .served u .releaseSpawn a) :
        ∃ i, Keeps (e :: H) u i (e :: H).length := by
      obtain ⟨i, set, before, kept⟩ := ih hold
      refine ⟨i, set.cons e, Nat.lt_succ_of_lt before, fun m a him _ hat => ?_⟩
      rcases At.cons_iff.mp hat with ⟨-, heq⟩ | hat
      · exact stays a heq
      · exact kept m a him hat.lt hat
    cases e with
    | began => exact old h nofun
    | served w r a =>
      by_cases hw : w = u
      · subst hw
        rw [traceOf_self] at h
        cases r with
        | claimSpawn =>
          obtain rfl : a = true := h
          refine ⟨H.length, At.head _, Nat.lt_succ_self _, fun m a him hm _ => ?_⟩
          exact absurd (Nat.lt_of_lt_of_le him (Nat.le_of_lt_succ hm)) (Nat.lt_irrefl _)
        | releaseSpawn => cases h
        | _ => exact old h nofun
      · rw [traceOf_ne hw] at h
        refine old h fun b heq => hw ?_
        cases heq
        rfl

def Honoured (S : State) (n : NodeId) : Prop :=
  ∀ i k u v j j', At S.history i (.served u .claimSpawn true) → S.has u n j →
    At S.history k (.served v .claimSpawn true) → S.has v n j' → i < k →
      ∃ m w j'', i < m ∧ m < k ∧ At S.history m (.served w .releaseSpawn ()) ∧ S.has w n j''

theorem length_past (hk : k ≤ H.length) : (past H k).length = k := by
  rw [past, List.length_drop]
  omega

theorem exists_keeps_past (hk : k ≤ H.length) (held : holds (traceOf u (past H k)) = true) :
    ∃ i, Keeps H u i k := by
  obtain ⟨i, set, before, kept⟩ := exists_keeps held
  rw [length_past hk] at before kept
  refine ⟨i, ((at_past hk).mp set).2, before, fun m a him hmk hat => ?_⟩
  exact kept m a him hmk ((at_past hk).mpr ⟨hmk, hat⟩)

variable {J J' : Job}

theorem Reachable.spawning (reach : Reachable net S) {r : Effect} {a : r.Answer}
    (served : At S.history k (.served u r a)) (has : S.has u n J) (marked : marks r = true) :
    Spawning (traceOf u (past S.history k)) r :=
  ((marking net).rule_of_served reach served has marked).2

theorem not_launched {loops : List Loop} {a : Unit} (unlaunched : Unlaunched (traceOf u (past H k)))
    (hk : k ≤ H.length) (served : At H i (.served u (.launch loops) a)) : ¬ i < k := fun hik =>
  unlaunched loops a (mem_traceOf.mpr ((at_past hk).mpr ⟨hik, served⟩).mem)

/-- Two that keep the mark at a time are one, or the first of them would have to take it away. -/
theorem Reachable.keeps_unique (reach : Reachable net S) (honoured : Honoured S n)
    (hk : k ≤ S.history.length) (hu : S.has u n J) (hv : S.has v n J') (keeps : Keeps S.history u i k)
    (keeps' : Keeps S.history v j k) : i = j := by
  induction k using Nat.strongRecOn generalizing u v i j J J' with
  | ind k ih =>
    have not_before {u v : TaskId} {J J' : Job} {i j : Nat} (hu : S.has u n J) (hv : S.has v n J')
        (keeps : Keeps S.history u i k) (keeps' : Keeps S.history v j k) : ¬ i < j := by
      intro hij
      obtain ⟨m, w, J'', him, hmj, freed, hw⟩ :=
        honoured i j u v J J' keeps.set hu keeps'.set hv hij
      have hmk := Nat.lt_trans hmj keeps'.before
      have hm := Nat.le_of_lt freed.lt
      cases reach.spawning freed hw rfl with
      | release held unlaunched =>
        obtain ⟨i', keeper⟩ := exists_keeps_past hm held
        obtain rfl := ih m hmk hm hu hw (keeps.earlier him (Nat.le_of_lt hmk)) keeper
        cases keeps.set.inj keeper.set
        exact keeps.kept m () him hmk freed
    have hle := not_before hu hv keeps keeps'
    have hge := not_before hv hu keeps' keeps
    omega

theorem Reachable.keeps_of_launch (reach : Reachable net S) (hu : S.has u n J) {loops : List Loop}
    {a : Unit} (served : At S.history k (.served u (.launch loops) a)) :
    ∃ i, Keeps S.history u i S.history.length := by
  cases reach.spawning served hu rfl with
  | launch _ held unlaunched =>
    obtain ⟨i, keeps⟩ := exists_keeps_past (Nat.le_of_lt served.lt) held
    refine ⟨i, keeps.set, keeps.set.lt, fun m b him _ freed => ?_⟩
    rcases Nat.lt_or_ge m k with hmk | hkm
    · exact keeps.kept m b him hmk freed
    · have hne : k ≠ m := by
        rintro rfl
        cases served.inj freed
      cases reach.spawning freed hu rfl with
      | release _ unlaunched =>
        exact not_launched unlaunched (Nat.le_of_lt freed.lt) served (Nat.lt_of_le_of_ne hkm hne)

theorem Reachable.launch_unique (reach : Reachable net S) (honoured : Honoured S n)
    (hu : S.has u n J) (hv : S.has v n J') {loops loops' : List Loop} {a a' : Unit}
    (served : At S.history i (.served u (.launch loops) a))
    (served' : At S.history j (.served v (.launch loops') a')) : i = j := by
  obtain ⟨p, keeps⟩ := reach.keeps_of_launch hu served
  obtain ⟨q, keeps'⟩ := reach.keeps_of_launch hv served'
  obtain rfl := reach.keeps_unique honoured (Nat.le_refl _) hu hv keeps keeps'
  cases keeps.set.inj keeps'.set
  have not_before {i j : Nat} {loops loops' : List Loop}
      (served : At S.history i (.served u (.launch loops) a))
      (served' : At S.history j (.served u (.launch loops') a')) : ¬ i < j := by
    cases reach.spawning served' hu rfl with
    | launch _ _ unlaunched => exact not_launched unlaunched (Nat.le_of_lt served'.lt) served
  have hle := not_before served served'
  have hge := not_before served' served
  omega

theorem Reachable.fire_of_launch (reach : Reachable net S) {stop : SignalId} {last : Nat}
    (has : S.has u n (.loop (.fire stop last))) :
    u.index = 0 ∧ ∃ v J loops, S.has v n J ∧ At S.history u.event (.served v (.launch loops) ()) := by
  cases reach.founded.origin u n _ has with
  | child v J r a parent served job =>
    have hmem := List.mem_of_getElem? job
    cases r with
    | start e => cases List.mem_singleton.mp hmem
    | launch loops =>
      refine ⟨?_, v, J, loops, parent, served⟩
      cases reach.spawning served parent rfl with
      | launch _ _ _ fireFirst =>
        obtain ⟨stop', last', dispatching, rfl, others⟩ := fireFirst
        cases hi : u.index with
        | zero => rfl
        | succ i =>
          rw [hi] at job
          have later : (dispatching.map Job.loop)[i]? = some (.loop (.fire stop last)) := job
          obtain ⟨l, hl, heq⟩ := List.mem_map.mp (List.mem_of_getElem? later)
          cases heq
          obtain ⟨b, consumer, services, stop'', heq⟩ := others _ hl
          cases heq
    | _ => cases hmem

theorem Reachable.fire_unique (reach : Reachable net S) (honoured : Honoured S n)
    {stop stop' : SignalId} {last last' : Nat} (hu : S.has u n (.loop (.fire stop last)))
    (hv : S.has v n (.loop (.fire stop' last'))) : u = v := by
  obtain ⟨first, w, J, loops, hw, served⟩ := reach.fire_of_launch hu
  obtain ⟨first', w', J', loops', hw', served'⟩ := reach.fire_of_launch hv
  exact TaskId.ext (reach.launch_unique honoured hw hw' served served') (first.trans first'.symm)

end BrokeredCalls.Network
