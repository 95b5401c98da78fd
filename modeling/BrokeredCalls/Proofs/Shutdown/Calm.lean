import BrokeredCalls.Proofs.Shutdown.Invariant

/-!
A node of which no two shutdowns are under way at a time. A shutdown comes past its wait, and to the
brokers, only when the loops are over; so every call of a loop finds its broker open, and whatever a loop
took it sees to.
-/

namespace BrokeredCalls.Shutdown

open Network
open Node (Effect Loop Routine)

structure World.Calm (node : Setup) (w : World) : Prop where
  settles : ∀ t ∈ w.tasks, t.IsLoop → t.Settles node
  joined : ∀ t ∈ w.tasks, Joined t.trail → w.LoopsOver
  shut : ∀ b, (w.handles b).closed = true → ∃ t ∈ w.tasks, Joined t.trail

variable {node : Setup} {storeOf : BrokerId → StoreId} {w w₁ w' : World} {k : Nat} {j : Job}
  {tr : Trail} {r : Effect} {a : r.Answer} {next : r.Answer → Routine Ending}

theorem Apart.reachable (apart : Apart node storeOf w) : Reachable node storeOf w := by
  induction apart with
  | fresh fresh => exact .fresh fresh
  | step _ step _ ih => exact .step ih step

theorem Apart.sole (apart : Apart node storeOf w) : w.Sole := by
  cases apart with
  | fresh fresh =>
    unfold World.Sole
    rw [fresh.tasks]
    exact .nil
  | step _ _ sole => exact sole

theorem World.Orderly.goesDown_of_waits (orderly : w.Orderly node) {t : Task} (mem : t ∈ w.tasks)
    (waits : t.Waits) : t.goesDown = true := by
  obtain ⟨next, asks⟩ := waits
  obtain ⟨j, work, tr⟩ := t
  obtain rfl : work = .ask .joinWorkers next := asks
  obtain rfl : j = .operation .shutdown := (orderly.tasks _ mem).asks.shutdown_of_join
  rfl

theorem World.Sole.not_both (sole : w.Sole) {i k : Nat} {t u : Task} (other : i ≠ k)
    (here : w.tasks[i]? = some t) (there : w.tasks[k]? = some u) : ¬ (t.goesDown ∧ u.goesDown) := by
  obtain ⟨hi, rfl⟩ := List.getElem?_eq_some_iff.mp here
  obtain ⟨hk, rfl⟩ := List.getElem?_eq_some_iff.mp there
  have apart := List.pairwise_iff_getElem.mp sole
  rcases Nat.lt_or_gt_of_ne other with less | more
  · exact apart i k hi hk less
  · exact fun both => apart k i hk hi more both.symm

namespace World.Calm

theorem fresh (fresh : w.Fresh) : w.Calm node := by
  have none (t : Task) : t ∉ w.tasks := fresh.tasks ▸ List.not_mem_nil
  exact
    { settles := fun t ht => absurd ht (none t)
      joined := fun t ht => absurd ht (none t)
      shut := fun b closed => absurd (closed.symm.trans (fresh.opened b)) (by simp) }

variable (calm : w.Calm node)
include calm

theorem congr (tasks : w'.tasks = w.tasks) (handles : w'.handles = w.handles) : w'.Calm node := by
  obtain ⟨_, _, handles₁, _, _, _, tasks₁, _⟩ := w'
  cases tasks
  cases handles
  exact ⟨calm.settles, calm.joined, calm.shut⟩

theorem not_joined {l : Loop} (here : w.tasks[k]? = some ⟨.loop l, .ask r next, tr⟩) :
    ∀ t ∈ w.tasks, ¬ Joined t.trail := by
  intro t ht joined
  have ended := calm.joined t ht joined _ (List.mem_of_getElem? here) ⟨l, rfl⟩
  cases ended

theorem opened {l : Loop} (here : w.tasks[k]? = some ⟨.loop l, .ask r next, tr⟩) (b : BrokerId) :
    (w.handles b).closed = false := by
  refine Bool.eq_false_iff.mpr fun closed => ?_
  obtain ⟨t, ht, joined⟩ := calm.shut b closed
  exact calm.not_joined here t ht joined

theorem begin {jobs : List Job} (unjoined : ∀ l, .loop l ∈ jobs → ∀ t ∈ w.tasks, ¬ Joined t.trail) :
    (w.begin node jobs).Calm node where
  settles t ht isLoop := by
    rcases World.mem_begin ht with old | ⟨j, -, rfl⟩
    · exact calm.settles t old isLoop
    · obtain ⟨l, rfl⟩ : ∃ l, j = .loop l := isLoop
      exact .begun
  joined t ht joined u hu isLoop := by
    rcases World.mem_begin ht with ht | ⟨j, -, rfl⟩
    · rcases World.mem_begin hu with hu | ⟨j, hj, rfl⟩
      · exact calm.joined t ht joined u hu isLoop
      · obtain ⟨l, rfl⟩ : ∃ l, j = .loop l := isLoop
        exact absurd joined (unjoined l hj t ht)
    · cases joined
  shut b closed := World.exists_begin (calm.shut b closed)

theorem put {t u : Task} (here : w.tasks[k]? = some t) (same : w₁.tasks = w.tasks)
    (job : u.job = t.job) (settles : t.IsLoop → u.Settles node) (trail : t.trail <:+ u.trail)
    (working : t.work ≠ .done .nothing) (joined : Joined u.trail → w.LoopsOver)
    (shut : ∀ b, (w₁.handles b).closed = true → (w.handles b).closed = true ∨ Joined u.trail) :
    (w₁.put k u).Calm node := by
  have mem := List.mem_of_getElem? here
  have cases_mem {v : Task} (hv : v ∈ (w₁.put k u).tasks) : v = u ∨ v ∈ w.tasks :=
    same ▸ World.mem_put hv
  have wasLoop (isLoop : u.IsLoop) : t.IsLoop := isLoop.imp fun l h => job.symm.trans h
  refine ⟨fun v hv isLoop => ?_, fun v hv h v' hv' isLoop => ?_, fun b closed => ?_⟩
  · rcases cases_mem hv with rfl | old
    · exact settles (wasLoop isLoop)
    · exact calm.settles v old isLoop
  · have finished : w.LoopsOver := by
      rcases cases_mem hv with rfl | old
      · exact joined h
      · exact calm.joined v old h
    rcases cases_mem hv' with rfl | old
    · exact absurd (finished t mem (wasLoop isLoop)) working
    · exact finished v' old isLoop
  · rcases shut b closed with old | h
    · exact World.exists_put (same ▸ here) (fun h => trail.subset h) (same ▸ calm.shut b old)
    · exact ⟨u, List.mem_set (same ▸ (List.getElem?_eq_some_iff.mp here).1) u, h⟩

theorem put_again {l : Loop} (here : w.tasks[k]? = some ⟨j, .done (.again l), tr⟩) :
    (w.put k ⟨j, round node.shared l, tr⟩).Calm node := by
  have mem := List.mem_of_getElem? here
  exact calm.put here rfl rfl (fun isLoop => (calm.settles _ mem isLoop).again) (List.suffix_refl tr)
    nofun (fun joined => calm.joined _ mem joined) fun b => .inl

theorem put_served (orderly : w.Orderly node) (sole : w.Sole) (recorded : w.Recorded storeOf)
    (here : w.tasks[k]? = some ⟨j, .ask r next, tr⟩) (serves : Serves node storeOf w r a w₁)
    (doer : Option (Nat × Exchange Node.interface)) :
    ((w.note w₁ doer).put k ⟨j, next a, ⟨r, a⟩ :: tr⟩).Calm node := by
  have mem := List.mem_of_getElem? here
  refine calm.put here serves.tasks rfl (fun isLoop => ?_) (List.suffix_cons _ tr) nofun
    (fun joined => ?_) fun b closed => ?_
  · obtain ⟨l, rfl⟩ : ∃ l, j = .loop l := isLoop
    have fits := orderly.fits recorded here serves
    exact (calm.settles _ mem ⟨l, rfl⟩).answered (serves.sound (calm.opened here) fits.proper)
  · rcases List.mem_cons.mp joined with now | before
    · rcases serves.ended now with finished | ⟨i, k, t, u, other, ht, hu, waits, waits'⟩
      · exact finished
      · exact absurd ⟨orderly.goesDown_of_waits (List.mem_of_getElem? ht) waits,
          orderly.goesDown_of_waits (List.mem_of_getElem? hu) waits'⟩ (sole.not_both other ht hu)
    · exact calm.joined _ mem before
  · rcases serves.handles_cases closed with old | closes
    · exact .inl old
    · subst closes
      obtain ⟨-, joined⟩ : j = .operation .shutdown ∧ Joined tr :=
        (orderly.tasks _ mem).asks.permitted.requires
      exact .inr (List.mem_cons_of_mem _ joined)

theorem step (orderly : w.Orderly node) (sole : w.Sole) (recorded : w.Recorded storeOf)
    (step : Step node storeOf w w') : w'.Calm node := by
  cases step with
  | pass now later => exact calm.congr rfl rfl
  | outside i does => exact calm.congr rfl rfl
  | again here => exact calm.put_again here
  | begin o alone up =>
    refine calm.begin fun l hl => ?_
    cases List.mem_singleton.mp hl
  | @serve _ k j tr r next a here serves =>
    refine (calm.put_served orderly sole recorded here serves _).begin fun l hl t ht joined => ?_
    have unjoined := (orderly.launches here hl).2
    rcases World.mem_put ht with rfl | old
    · rcases List.mem_cons.mp joined with now | before
      · cases now
        cases hl
      · exact unjoined _ (List.mem_of_getElem? here) before
    · exact unjoined t (serves.tasks ▸ old) joined

end World.Calm

theorem Apart.calm (apart : Apart node storeOf w) : w.Calm node := by
  induction apart with
  | fresh fresh => exact .fresh fresh
  | step earlier step _ ih =>
    exact ih.step earlier.reachable.orderly earlier.sole earlier.reachable.recorded step

end BrokeredCalls.Shutdown
