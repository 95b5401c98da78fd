import BrokeredCalls.Proofs.Solo.Completion

/-!
The fire loop over due tasks while some brokers refuse every claim. There is one list for the tasks of
all brokers and a pass looks at its first task alone. A claim that fails puts the task back where it
was, so the passes get as far as the first task whose broker refuses and stay there.
-/

namespace BrokeredCalls.Outage

open Network (Setup)
open Node (Effect Loop)
open Program (Runs)

structure Claim where
  broker : BrokerId
  key : String
  field : String
  answered : Bool

def Claim.of (b : BrokerId) (t : DelayedTask) (answered : Bool) : Claim :=
  ⟨b, Key.delay t.service, Decimal.ofInt64 t.fireAt, answered⟩

structure World where
  pending : TaskQueue
  /-- Newest first. -/
  claims : List Claim

def World.Attempted (W : World) (t : DelayedTask) : Prop :=
  ∃ b answered, Claim.of b t answered ∈ W.claims

/-- The brokers that are down refuse every claim and the others answer each somehow. The hashes name
no task that is not tracked, and nothing stops the loop. -/
def Answers (node : Setup) (down : BrokerId → Prop) (now : FireTime) (W : World) :
    (r : Effect) → r.Answer → World → Prop
  | .broker b (.hashTake key field), a, W' =>
    (a.isOk ↔ ¬ down b) ∧ W' = { W with claims := ⟨b, key, field, a.isOk⟩ :: W.claims }
  | .broker _ (.hashFields key), a, W' => W' = W ∧ ∀ fields, a = .ok fields →
    ∀ service, key = Key.delay service → ∀ t ∈ Node.Deferred.tasksOf service fields, t ∈ W.pending
  | .pending access, a, W' =>
    a = (access.run W.pending).1 ∧ W' = { W with pending := (access.run W.pending).2 }
  | .resolve service, a, W' => a = node.registry.resolve service ∧ W' = W
  | .reading, a, W' => now ≤ a ∧ W' = W
  | .isRaised _, a, W' => a = false ∧ W' = W
  | .pauseUnlessStopped .., a, W' => a = .value () ∧ W' = W
  | _, _, W' => W' = W

inductive Passes (node : Setup) (down : BrokerId → Prop) (now : FireTime) (l : Loop) (W : World) :
    Nat → Loop → World → Prop
  | none : Passes node down now l W 0 l W
  | more {m : Nat} {l₁ l₂ : Loop} {W₁ W₂ : World} (earlier : Passes node down now l W m l₁ W₁)
    (pass : Runs (Answers node down now) (l₁.round node.shared) W₁ (some l₂) W₂) :
    Passes node down now l W (m + 1) l₂ W₂

def home (node : Setup) (t : DelayedTask) : Option BrokerId :=
  (node.registry.resolve t.service).bind fun route => node.shared.brokerOf route.source

def Fails (node : Setup) (down : BrokerId → Prop) (t : DelayedTask) : Prop :=
  ∃ b, home node t = some b ∧ down b

theorem Claim.of_inj {b b' : BrokerId} {t t' : DelayedTask} {answered answered' : Bool} :
    Claim.of b t answered = .of b' t' answered' ↔ b = b' ∧ t = t' ∧ answered = answered' := by
  constructor
  · intro same
    obtain ⟨broker, key, field, answer⟩ := Claim.mk.inj same
    have service : t.service = t'.service := Key.delay_injective key
    have fireAt : t.fireAt = t'.fireAt := Decimal.ofInt64_injective field
    cases t
    cases t'
    exact ⟨broker, by simp_all, answer⟩
  · rintro ⟨rfl, rfl, rfl⟩
    rfl

section Pass

variable {node : Setup} {down : BrokerId → Prop} {now : FireTime} {W W' : World}

/-- The program changes nothing, and the tasks that its value stands for are tracked. -/
def Tracks (node : Setup) (down : BrokerId → Prop) (now : FireTime) {α : Type}
    (p : Node.Attempt α) (tasks : α → List DelayedTask) : Prop :=
  ∀ W r W', Runs (Answers node down now) p.run W r W' →
    W' = W ∧ ∀ a, r = .ok a → ∀ t ∈ tasks a, t ∈ W.pending

theorem Tracks.append {α : Type} {p : Node.Attempt α} {tasks : α → List DelayedTask}
    {q : Node.Attempt (List DelayedTask)} (first : Tracks node down now p tasks)
    (others : Tracks node down now q id) :
    Tracks node down now (do let a ← p; return tasks a ++ (← q)) id := by
  intro W r W' run
  rcases Runs.bindExcept_iff.mp run with ⟨a, W₁, here, going⟩ | ⟨e, here, rfl⟩
  · obtain ⟨rfl, tracked⟩ := first _ _ _ here
    rcases Runs.bindExcept_iff.mp going with ⟨found, W₂, there, rfl, rfl⟩ | ⟨e, there, rfl⟩
    · obtain ⟨rfl, tracked'⟩ := others _ _ _ there
      refine ⟨rfl, fun all same t ht => ?_⟩
      cases same
      exact (List.mem_append.mp ht).elim (tracked a rfl t) (tracked' found rfl t)
    · exact ⟨(others _ _ _ there).1, by simp⟩
  · exact ⟨(first _ _ _ here).1, by simp⟩

theorem tracks_nil : Tracks node down now (pure []) id := by
  rintro W r W' ⟨rfl, rfl⟩
  simp

theorem tracks_scanServices (b : BrokerId) (services : List String) :
    Tracks node down now (Node.Deferred.scanServices b services) id := by
  induction services with
  | nil => exact tracks_nil
  | cons service rest ih =>
    refine Tracks.append (fun W r W' run => ?_) ih
    obtain ⟨rfl, named⟩ := Runs.request_iff.mp run
    exact ⟨rfl, fun fields same => named fields same service rfl⟩

theorem tracks_scan (sources : List Node.Source) :
    Tracks node down now (Node.Deferred.scan sources) id := by
  induction sources with
  | nil => exact tracks_nil
  | cons source rest ih =>
    intro W r W' run
    obtain ⟨services, W₁, listed, going⟩ := Runs.bindLift_iff.mp run
    obtain rfl : W₁ = W := Runs.request_iff.mp listed
    exact Tracks.append (tracks_scanServices source.broker services) ih _ _ _ going

theorem resync_same {r : Except Error Unit}
    (run : Runs (Answers node down now) (Node.Deferred.resync node.shared).run W r W') : W' = W := by
  rcases Runs.bindExcept_iff.mp run with ⟨found, W₁, scanned, merging⟩ | ⟨e, scanned, -⟩
  · obtain ⟨rfl, tracked⟩ := tracks_scan _ _ _ _ scanned
    obtain ⟨_, merged, -⟩ := Runs.lift_iff.mp merging
    obtain ⟨-, rfl⟩ := Runs.request_iff.mp merged
    have same : W₁.pending.merge found = W₁.pending := by
      refine TaskQueue.eq_of_mem_iff fun t => ?_
      rw [TaskQueue.mem_merge]
      exact or_iff_right_of_imp (tracked found rfl t)
    simp only [TaskQueue.Access.run, same]
  · exact (tracks_scan _ _ _ _ scanned).1

inductive Fired (node : Setup) (down : BrokerId → Prop) (t : DelayedTask) (W : World) :
    Except Error Unit → World → Prop
  | dropped (homeless : home node t = none) : Fired node down t W (.ok ()) W
  | claimed {b : BrokerId} (lives : home node t = some b) (up : ¬ down b) :
    Fired node down t W (.ok ()) { W with claims := .of b t true :: W.claims }
  | failed {b : BrokerId} {e : Error} (lives : home node t = some b) (fails : down b) :
    Fired node down t W (.error e) ⟨W.pending.insert t, .of b t false :: W.claims⟩

theorem fired_of_run {t : DelayedTask} {r : Except Error Unit}
    (run : Runs (Answers node down now) (Node.Deferred.fire node.shared t).run W r W') :
    Fired node down t W r W' := by
  obtain ⟨found, W₁, looked, claiming⟩ := Runs.bindLift_iff.mp run
  obtain ⟨rfl, rfl⟩ := (Solo.brokerFor_run_of fun _ _ => Iff.rfl).mp looked
  generalize lives : (node.registry.resolve t.service).bind _ = b? at claiming
  change home node t = b? at lives
  cases b? with
  | none =>
    obtain ⟨rfl, rfl⟩ := claiming
    exact .dropped lives
  | some b =>
    obtain ⟨taken, W₂, asked, going⟩ := Runs.bindLift_iff.mp claiming
    obtain ⟨answered, rfl⟩ := Runs.request_iff.mp asked
    cases taken with
    | error e =>
      have fails : down b := by simpa [Except.isOk, Except.toBool] using answered
      obtain ⟨_, W₃, putBack, rfl, rfl⟩ := Runs.bindLift_iff.mp going
      obtain ⟨-, rfl⟩ := Runs.request_iff.mp putBack
      exact .failed lives fails
    | ok field =>
      have up : ¬ down b := by simpa [Except.isOk, Except.toBool] using answered
      have ended : r = .ok () ∧ W' = { W₁ with claims := .of b t true :: W₁.claims } := by
        cases field with
        | none => exact going
        | some payload =>
          cases payload with
          | nil => exact going
          | cons byte bytes =>
            obtain ⟨_, started, rfl⟩ := Runs.lift_iff.mp going
            obtain rfl := Runs.request_iff.mp started
            exact ⟨rfl, rfl⟩
      obtain ⟨rfl, rfl⟩ := ended
      exact .claimed lives up

inductive Passed (node : Setup) (down : BrokerId → Prop) (W : World) : World → Prop
  | idle (empty : W.pending.tasks = []) : Passed node down W W
  | dropped (t : DelayedTask) (ts : List DelayedTask) (first : W.pending.tasks = t :: ts)
    (homeless : home node t = none) : Passed node down W { W with pending := W.pending.erase t }
  | claimed (t : DelayedTask) (ts : List DelayedTask) (b : BrokerId)
    (first : W.pending.tasks = t :: ts) (lives : home node t = some b) (up : ¬ down b) :
    Passed node down W ⟨W.pending.erase t, .of b t true :: W.claims⟩
  | failed (t : DelayedTask) (ts : List DelayedTask) (b : BrokerId)
    (first : W.pending.tasks = t :: ts) (lives : home node t = some b) (fails : down b) :
    Passed node down W { W with claims := .of b t false :: W.claims }

theorem passed_of_fired {t : DelayedTask} {ts : List DelayedTask} {r : Except Error Unit}
    (first : W.pending.tasks = t :: ts)
    (fired : Fired node down t { W with pending := W.pending.erase t } r W') :
    Passed node down W W' := by
  cases fired with
  | dropped homeless => exact .dropped t ts first homeless
  | claimed lives up => exact .claimed t ts _ first lives up
  | failed lives fails =>
    have back : (W.pending.erase t).insert t = W.pending := by
      refine TaskQueue.insert_erase ?_
      simp [TaskQueue.mem_def, first]
    rw [back]
    exact .failed t ts _ first lives fails

theorem nextStep_of_run {r : Node.Deferred.Step}
    (run : Runs (Answers node down now) (Node.Deferred.nextStep node.shared) W r W') :
    ∃ at_, now ≤ at_ ∧ r = .of node.shared.config.pollInterval at_ (W.pending.next at_).1 ∧
      W' = { W with pending := (W.pending.next at_).2 } := by
  obtain ⟨at_, W₁, read, looking⟩ := Runs.bind_iff.mp run
  obtain ⟨later, rfl⟩ := Runs.request_iff.mp read
  obtain ⟨found, W₂, looked, rfl, rfl⟩ := Runs.bind_iff.mp looking
  obtain ⟨rfl, rfl⟩ := Runs.request_iff.mp looked
  exact ⟨at_, later, rfl, rfl⟩

theorem passed_of_pauseAfter {at_ : FireTime} {pause : Option Duration}
    (due : ∀ t ∈ W.pending, t.fireAt ≤ at_)
    (run : Runs (Answers node down now) (Node.Deferred.pauseAfter node.shared
        (.of node.shared.config.pollInterval at_ (W.pending.next at_).1))
      { W with pending := (W.pending.next at_).2 } pause W') : Passed node down W W' := by
  cases tasks : W.pending.tasks with
  | nil =>
    have looked : W.pending.next at_ = (.nothing, W.pending) := TaskQueue.next_of_nil tasks at_
    rw [looked] at run
    obtain ⟨-, rfl⟩ := run
    exact .idle tasks
  | cons t ts =>
    have mem : t ∈ W.pending := by simp [TaskQueue.mem_def, tasks]
    have looked : W.pending.next at_ = (.due t, W.pending.erase t) :=
      TaskQueue.next_eq_due_iff.mpr ⟨by simp [TaskQueue.peek, tasks], due t mem, rfl⟩
    rw [looked] at run
    obtain ⟨result, W₁, fired, ended⟩ := Runs.bind_iff.mp run
    have outcome := passed_of_fired tasks (fired_of_run fired)
    cases result <;>
      · obtain ⟨-, rfl⟩ := ended
        exact outcome

theorem passed_of_rest {stop : SignalId} {again : Loop} {r : Option Loop}
    (due : ∀ t ∈ W.pending, t.fireAt ≤ now)
    (run : Runs (Answers node down now) (Node.Deferred.rest node.shared stop again) W r W') :
    r = some again ∧ Passed node down W W' := by
  obtain ⟨step, W₁, looked, dealing⟩ := Runs.bind_iff.mp run
  obtain ⟨at_, later, rfl, rfl⟩ := nextStep_of_run looked
  obtain ⟨pause, W₂, dealt, pausing⟩ := Runs.bind_iff.mp dealing
  have passed := passed_of_pauseAfter (fun t ht => Int64.le_trans (due t ht) later) dealt
  cases pause with
  | none =>
    obtain ⟨rfl, rfl⟩ := pausing
    exact ⟨rfl, passed⟩
  | some d =>
    obtain ⟨ended, W₃, paused, ending⟩ := Runs.bind_iff.mp pausing
    obtain ⟨rfl, rfl⟩ := Runs.request_iff.mp paused
    obtain ⟨rfl, rfl⟩ := ending
    exact ⟨rfl, passed⟩

theorem passed_of_round {stop : SignalId} {last : Nat} {r : Option Loop}
    (due : ∀ t ∈ W.pending, t.fireAt ≤ now)
    (run : Runs (Answers node down now) (Node.Deferred.round node.shared stop last) W r W') :
    (∃ last', r = some (.fire stop last')) ∧ Passed node down W W' := by
  obtain ⟨raised, W₁, ⟨rfl, rfl⟩, going⟩ := Solo.rest_of_round run
  obtain ⟨clock, W₂, W₃, last', read, merged, looking⟩ := going rfl
  obtain rfl : W₂ = W₁ := read
  have same : W₃ = W₂ := by
    rcases merged with same | ⟨_, merged⟩
    · exact same
    · exact resync_same merged
  obtain rfl := same
  obtain ⟨rfl, passed⟩ := passed_of_rest due looking
  exact ⟨⟨last', rfl⟩, passed⟩

end Pass

section Run

variable {node : Setup} {down : BrokerId → Prop} {now : FireTime} {clear kept : List DelayedTask}
  {m : Nat} {W W' : World}

/-- Tasks in two parts, the second of which begins with the first task on a broker that is down. -/
structure Split (node : Setup) (down : BrokerId → Prop) (ts clear kept : List DelayedTask) : Prop where
  whole : ts = clear ++ kept
  passable : ∀ t ∈ clear, ¬ Fails node down t
  blocked : ∀ t ∈ kept.head?, Fails node down t

theorem exists_split (node : Setup) (down : BrokerId → Prop) (ts : List DelayedTask) :
    ∃ clear kept, Split node down ts clear kept := by
  induction ts with
  | nil => exact ⟨[], [], rfl, by simp, by simp⟩
  | cons t ts ih =>
    by_cases fails : Fails node down t
    · exact ⟨[], t :: ts, rfl, by simp, by simpa using fails⟩
    · obtain ⟨clear, kept, rfl, passable, blocked⟩ := ih
      exact ⟨t :: clear, kept, rfl, List.forall_mem_cons.mpr ⟨fails, passable⟩, blocked⟩

def claimOf (node : Setup) (answered : Bool) (t : DelayedTask) : Option Claim :=
  (home node t).map fun b => .of b t answered

/-- How far `m` passes get with a list of which `clear` comes before the first task on a broker that is
down. -/
structure Progress (node : Setup) (clear kept : List DelayedTask) (m : Nat) (W : World) : Prop where
  tasks : W.pending.tasks = clear.drop m ++ kept
  claims : W.claims =
    (List.replicate (m - clear.length) (kept.head?.bind (claimOf node false)).toList).flatten ++
      ((clear.take m).filterMap (claimOf node true)).reverse

theorem Progress.first (p : Progress node clear kept m W) {t : DelayedTask} {ts : List DelayedTask}
    (first : W.pending.tasks = t :: ts) :
    (t ∈ clear ∧ m < clear.length ∧ clear.take (m + 1) = clear.take m ++ [t] ∧
        ts = clear.drop (m + 1) ++ kept) ∨
      clear.length ≤ m ∧ kept.head? = some t := by
  have tasks := first.symm.trans p.tasks
  rcases Nat.lt_or_ge m clear.length with more | past
  · rw [List.drop_eq_getElem_cons more, List.cons_append] at tasks
    obtain ⟨rfl, rfl⟩ := List.cons.inj tasks
    exact .inl ⟨List.getElem_mem more, more, (List.take_append_getElem more).symm, rfl⟩
  · rw [List.drop_eq_nil_of_le past, List.nil_append] at tasks
    exact .inr ⟨past, by rw [← tasks]; rfl⟩

theorem Progress.step {ts : List DelayedTask} (p : Progress node clear kept m W)
    (split : Split node down ts clear kept) (passed : Passed node down W W') :
    Progress node clear kept (m + 1) W' := by
  obtain ⟨tasks, claims⟩ := p
  cases passed with
  | idle empty =>
    obtain ⟨done, rfl⟩ := List.append_eq_nil_iff.mp (tasks.symm.trans empty)
    have past : clear.length ≤ m := List.drop_eq_nil_iff.mp done
    rw [List.take_of_length_le past] at claims
    refine ⟨?_, ?_⟩
    · rw [empty, List.append_nil, List.drop_eq_nil_of_le (Nat.le_succ_of_le past)]
    · rw [claims, List.take_of_length_le (Nat.le_succ_of_le past)]
      simp
  | dropped t ts first homeless =>
    rcases Progress.first ⟨tasks, claims⟩ first with ⟨-, more, taken, rfl⟩ | ⟨-, head⟩
    · refine ⟨TaskQueue.erase_first first, ?_⟩
      rw [claims, taken, Nat.sub_eq_zero_of_le more, Nat.sub_eq_zero_of_le (Nat.le_of_lt more)]
      simp [claimOf, homeless]
    · obtain ⟨b, lives, -⟩ := split.blocked t head
      cases homeless.symm.trans lives
  | claimed t ts b first lives up =>
    rcases Progress.first ⟨tasks, claims⟩ first with ⟨-, more, taken, rfl⟩ | ⟨-, head⟩
    · refine ⟨TaskQueue.erase_first first, ?_⟩
      rw [claims, taken, Nat.sub_eq_zero_of_le more, Nat.sub_eq_zero_of_le (Nat.le_of_lt more)]
      simp [claimOf, lives]
    · obtain ⟨b', lives', fails⟩ := split.blocked t head
      cases lives.symm.trans lives'
      exact absurd fails up
  | failed t ts b first lives fails =>
    rcases Progress.first ⟨tasks, claims⟩ first with ⟨mem, -⟩ | ⟨past, head⟩
    · exact absurd ⟨b, lives, fails⟩ (split.passable t mem)
    · -- the list is as it was before the pass, so all that grows is the run of refusals
      rw [List.take_of_length_le past] at claims
      refine ⟨?_, ?_⟩
      · rw [tasks, List.drop_eq_nil_of_le past, List.drop_eq_nil_of_le (Nat.le_succ_of_le past)]
      · rw [claims, List.take_of_length_le (Nat.le_succ_of_le past), Nat.succ_sub past,
          List.replicate_succ, List.flatten_cons, head]
        simp [claimOf, lives]

theorem Progress.mem {q : TaskQueue} (p : Progress node clear kept m W)
    (split : Split node down q.tasks clear kept) {t : DelayedTask} (tracked : t ∈ W.pending) :
    t ∈ q := by
  rw [TaskQueue.mem_def, p.tasks] at tracked
  rw [TaskQueue.mem_def, split.whole]
  exact (List.mem_append.mp tracked).elim (fun h => List.mem_append_left _ (List.mem_of_mem_drop h))
    (List.mem_append_right _)

theorem Passes.progress {q : TaskQueue} {stop : SignalId} {last : Nat} {l : Loop}
    (due : ∀ t ∈ q, t.fireAt ≤ now) (split : Split node down q.tasks clear kept)
    (passes : Passes node down now (.fire stop last) ⟨q, []⟩ m l W) :
    (∃ last', l = .fire stop last') ∧ Progress node clear kept m W := by
  induction passes with
  | none => exact ⟨⟨last, rfl⟩, by simpa using split.whole, by simp⟩
  | more earlier pass ih =>
    obtain ⟨⟨last', rfl⟩, p⟩ := ih
    obtain ⟨⟨last'', same⟩, passed⟩ := passed_of_round (fun t ht => due t (p.mem split ht)) pass
    exact ⟨⟨last'', Option.some.inj same⟩, p.step split passed⟩

end Run

section Existence

variable {node : Setup} {down : BrokerId → Prop} {now : FireTime}

theorem exists_answer {r : Effect} (h : Solo.prompt r = true) (W : World) :
    ∃ a W', Answers node down now W r a W' := by
  cases r with
  | broker b c =>
    cases c with
    | hashTake key field =>
      by_cases fails : down b
      · exact ⟨.error (.transport "down"), _, by simp [Except.isOk, Except.toBool, fails], rfl⟩
      · exact ⟨.ok none, _, by simp [Except.isOk, Except.toBool, fails], rfl⟩
    | hashFields => exact ⟨.error (.transport "down"), W, rfl, by simp⟩
    | hashSet | hashDelete | pushReply => exact ⟨.ok (), W, rfl⟩
    | _ => cases h
  | pending access => exact ⟨_, _, rfl, rfl⟩
  | resolve => exact ⟨_, W, rfl, rfl⟩
  | reading => exact ⟨now, W, Int64.le_refl now, rfl⟩
  | isRaised | pauseUnlessStopped => exact ⟨_, W, rfl, rfl⟩
  | servicesOn => exact ⟨[], W, rfl⟩
  | invoke => exact ⟨.ok [], W, rfl⟩
  | start => exact ⟨(), W, rfl⟩
  | clock => exact ⟨0, W, rfl⟩
  | _ => cases h

theorem exists_passes (node : Setup) (down : BrokerId → Prop) {q : TaskQueue}
    (due : ∀ t ∈ q, t.fireAt ≤ now) (stop : SignalId) (last m : Nat) :
    ∃ l W, Passes node down now (.fire stop last) ⟨q, []⟩ m l W := by
  obtain ⟨clear, kept, split⟩ := exists_split node down q.tasks
  induction m with
  | zero => exact ⟨_, _, .none⟩
  | succ m ih =>
    -- what is left of the list is due still, so the loop has not come to an end
    obtain ⟨l, W, passes⟩ := ih
    obtain ⟨⟨last', rfl⟩, p⟩ := passes.progress due split
    have ends : ∃ r W', Runs (Answers node down now)
        (Node.Deferred.round node.shared stop last') W r W' :=
      Program.Asks.exists_runs (Solo.prompt_round node.shared stop last') (fun _ => exists_answer) W
    obtain ⟨r, W', run⟩ := ends
    obtain ⟨⟨last'', rfl⟩, -⟩ := passed_of_round (fun t ht => due t (p.mem split ht)) run
    exact ⟨_, W', .more passes run⟩

end Existence

section Order

variable {node : Setup} {down : BrokerId → Prop} {now : FireTime} {q : TaskQueue}
  {clear kept : List DelayedTask} {m : Nat} {W : World} {t u : DelayedTask}

structure Blocks (node : Setup) (down : BrokerId → Prop) (q : TaskQueue) (t : DelayedTask) : Prop where
  mem : t ∈ q
  fails : Fails node down t
  first : ∀ u ∈ q, u.Before t → ¬ Fails node down u

structure Reached (node : Setup) (down : BrokerId → Prop) (q : TaskQueue) (m : Nat) (W : World) :
    Prop where
  /-- As many passes as there are tasks claim all that is due before every task on a broker that is
  down. -/
  claimed : q.size ≤ m → ∀ t ∈ q, (∀ u ∈ q, Fails node down u → t.Before u) →
    ∀ b, home node t = some b → Claim.of b t true ∈ W.claims
  retried : q.size ≤ m → ∀ t b, Blocks node down q t → home node t = some b →
    ∃ older, W.claims = List.replicate (m + 1 - q.size) (.of b t false) ++ older
  tracked : ∀ u, Blocks node down q u → ∀ t ∈ q, t = u ∨ u.Before t → t ∈ W.pending
  behind : ∀ u, Blocks node down q u → ∀ t ∈ q, u.Before t → ¬ W.Attempted t

theorem before_kept (whole : q.tasks = clear ++ kept) (ht : t ∈ clear) (hu : u ∈ kept) : t.Before u :=
  (List.pairwise_append.mp (whole ▸ q.ascending)).2.2 t ht u hu

theorem before_later {us : List DelayedTask} (whole : q.tasks = clear ++ u :: us) (later : t ∈ us) :
    u.Before t := by
  have one_further : q.tasks = (clear ++ [u]) ++ us := by simpa using whole
  exact before_kept one_further (by simp) later

theorem Split.size (split : Split node down q.tasks clear kept) :
    q.size = clear.length + kept.length := by
  rw [TaskQueue.size, split.whole, List.length_append]

theorem Split.mem_iff (split : Split node down q.tasks clear kept) : t ∈ q ↔ t ∈ clear ∨ t ∈ kept := by
  rw [TaskQueue.mem_def, split.whole, List.mem_append]

theorem Blocks.head (blocks : Blocks node down q t) (split : Split node down q.tasks clear kept) :
    kept.head? = some t := by
  have mem : t ∈ kept :=
    (split.mem_iff.mp blocks.mem).resolve_left fun ht => split.passable t ht blocks.fails
  cases kept with
  | nil => cases mem
  | cons u us =>
    rcases List.mem_cons.mp mem with rfl | later
    · rfl
    · have tracked : u ∈ q := split.mem_iff.mpr (.inr List.mem_cons_self)
      exact absurd (split.blocked u rfl) (blocks.first u tracked (before_later split.whole later))

theorem Split.mem_clear (split : Split node down q.tasks clear kept) (mem : t ∈ q)
    (before : ∀ u ∈ q, Fails node down u → t.Before u) : t ∈ clear := by
  refine (split.mem_iff.mp mem).resolve_right fun ht => ?_
  cases kept with
  | nil => cases ht
  | cons u us =>
    have tracked : u ∈ q := split.mem_iff.mpr (.inr List.mem_cons_self)
    have ahead : t.Before u := before u tracked (split.blocked u rfl)
    rcases List.mem_cons.mp ht with rfl | later
    · exact DelayedTask.before_irrefl t ahead
    · exact DelayedTask.before_irrefl t (ahead.trans (before_later split.whole later))

theorem Blocks.not_mem_clear (blocks : Blocks node down q u) (split : Split node down q.tasks clear kept)
    (order : t = u ∨ u.Before t) : t ∉ clear := by
  intro ht
  have ahead := before_kept split.whole ht (List.mem_of_mem_head? (blocks.head split))
  rcases order with rfl | order
  · exact DelayedTask.before_irrefl t ahead
  · exact DelayedTask.before_irrefl t (ahead.trans order)

theorem Progress.attempted (p : Progress node clear kept m W) (tried : W.Attempted t) :
    t ∈ clear ∨ kept.head? = some t := by
  obtain ⟨b, answered, mem⟩ := tried
  rw [p.claims, List.mem_append] at mem
  rcases mem with mem | mem
  · obtain ⟨_, again, here⟩ := List.mem_flatten.mp mem
    rw [List.eq_of_mem_replicate again, Option.mem_toList, Option.bind_eq_some_iff] at here
    obtain ⟨u, head, claim⟩ := here
    obtain ⟨b', -, same⟩ := Option.map_eq_some_iff.mp claim
    obtain ⟨-, rfl, -⟩ := Claim.of_inj.mp same
    exact .inr head
  · obtain ⟨u, hu, claim⟩ := List.mem_filterMap.mp (List.mem_reverse.mp mem)
    obtain ⟨b', -, same⟩ := Option.map_eq_some_iff.mp claim
    obtain ⟨-, rfl, -⟩ := Claim.of_inj.mp same
    exact .inl (List.mem_of_mem_take hu)

theorem Progress.retried (p : Progress node clear kept m W) {b : BrokerId} {k : Nat}
    (head : kept.head? = some t) (lives : home node t = some b) (enough : k ≤ m - clear.length) :
    ∃ older, W.claims = List.replicate k (.of b t false) ++ older := by
  obtain ⟨more, split⟩ := Nat.exists_eq_add_of_le enough
  refine ⟨List.replicate more (.of b t false) ++
    ((clear.take m).filterMap (claimOf node true)).reverse, ?_⟩
  rw [p.claims, split, head, ← List.append_assoc, List.replicate_append_replicate]
  simp [claimOf, lives]

theorem Progress.reached (p : Progress node clear kept m W)
    (split : Split node down q.tasks clear kept) : Reached node down q m W where
  claimed enough t mem before b lives := by
    have fits : clear.length ≤ m := by
      rw [split.size] at enough
      omega
    rw [p.claims, List.take_of_length_le fits, List.mem_append, List.mem_reverse, List.mem_filterMap]
    exact .inr ⟨t, split.mem_clear mem before, by simp [claimOf, lives]⟩
  retried enough t b blocks lives := by
    have head := blocks.head split
    refine p.retried head lives ?_
    have some_kept : 0 < kept.length := List.length_pos_of_mem (List.mem_of_mem_head? head)
    rw [split.size]
    omega
  tracked u blocks t mem order := by
    have later : t ∈ kept := (split.mem_iff.mp mem).resolve_left (blocks.not_mem_clear split order)
    rw [TaskQueue.mem_def, p.tasks]
    exact List.mem_append_right _ later
  behind u blocks t mem order tried := by
    rcases p.attempted tried with ht | ht
    · exact blocks.not_mem_clear split (.inr order) ht
    · cases (blocks.head split).symm.trans ht
      exact DelayedTask.before_irrefl u order

theorem Passes.reached {stop : SignalId} {last : Nat} {l : Loop} (due : ∀ t ∈ q, t.fireAt ≤ now)
    (passes : Passes node down now (.fire stop last) ⟨q, []⟩ m l W) : Reached node down q m W := by
  obtain ⟨clear, kept, split⟩ := exists_split node down q.tasks
  exact (passes.progress due split).2.reached split

/-- Whatever brokers are down, the passes over due tasks get as far as the first task on one of them,
and while it lasts no further. -/
theorem passes_reach_first_failing (node : Setup) (down : BrokerId → Prop)
    (due : ∀ t ∈ q, t.fireAt ≤ now) (stop : SignalId) (last m : Nat) :
    (∃ l W, Passes node down now (.fire stop last) ⟨q, []⟩ m l W) ∧
      ∀ l W, Passes node down now (.fire stop last) ⟨q, []⟩ m l W → Reached node down q m W :=
  ⟨exists_passes node down due stop last m, fun _ _ passes => passes.reached due⟩

end Order

def pair : Setup where
  shared := ⟨[⟨"east", 0, "consumer"⟩, ⟨"west", 1, "consumer"⟩], Config.default⟩
  registry := (Registry.empty.register "east" "s" (.raw (fun _ => .null) .ok)).register "west" "u"
    (.raw (fun _ => .null) .ok)

def bothDue : TaskQueue := .ofList [⟨1, "s"⟩, ⟨2, "u"⟩]

theorem mem_bothDue {t : DelayedTask} : t ∈ bothDue ↔ t = ⟨1, "s"⟩ ∨ t = ⟨2, "u"⟩ := by
  simp [bothDue, TaskQueue.mem_ofList]

theorem home_east : home pair ⟨1, "s"⟩ = some 0 := rfl

theorem home_west : home pair ⟨2, "u"⟩ = some 1 := rfl

theorem due_both : ∀ t ∈ bothDue, t.fireAt ≤ 2 := by
  intro t ht
  rcases mem_bothDue.mp ht with rfl | rfl <;> decide

theorem east_before_west : (⟨1, "s"⟩ : DelayedTask).Before ⟨2, "u"⟩ := by
  simp [DelayedTask.Before, DelayedTask.compare]

theorem east_blocks : Blocks pair (· = 0) bothDue ⟨1, "s"⟩ where
  mem := mem_bothDue.mpr (.inl rfl)
  fails := ⟨0, home_east, rfl⟩
  first u hu before := by
    rcases mem_bothDue.mp hu with rfl | rfl
    · exact absurd before (DelayedTask.before_irrefl _)
    · exact absurd (before.trans east_before_west) (DelayedTask.before_irrefl _)

theorem reach_east : (∀ t ∈ bothDue, t.fireAt ≤ 2) ∧
    ∃ l W, Passes pair (· = 0) 2 (.fire 0 0) ⟨bothDue, []⟩ 2 l W ∧ Reached pair (· = 0) bothDue 2 W ∧
      ⟨2, "u"⟩ ∈ W.pending := by
  obtain ⟨⟨l, W, passes⟩, reached⟩ :=
    passes_reach_first_failing pair (· = 0) due_both 0 0 2
  refine ⟨due_both, l, W, passes, reached l W passes, ?_⟩
  exact (reached l W passes).tracked _ east_blocks _ (mem_bothDue.mpr (.inr rfl)) (.inr east_before_west)

/-- A task is starved by one on another broker that is down. -/
theorem not_all_attempted : ¬ ∀ (node : Setup) (down : BrokerId → Prop) (now : FireTime)
    (q : TaskQueue) (stop : SignalId) (last : Nat) (l : Loop) (W : World),
    (∀ t ∈ q, t.fireAt ≤ now) → (∀ t ∈ q, ∃ b, home node t = some b) →
      Passes node down now (.fire stop last) ⟨q, []⟩ q.size l W →
        ∀ t ∈ q, W.Attempted t ∧ (¬ Fails node down t → ∃ b, Claim.of b t true ∈ W.claims) := by
  intro hall
  have homes : ∀ t ∈ bothDue, ∃ b, home pair t = some b := by
    intro t ht
    rcases mem_bothDue.mp ht with rfl | rfl
    · exact ⟨0, home_east⟩
    · exact ⟨1, home_west⟩
  have west : (⟨2, "u"⟩ : DelayedTask) ∈ bothDue := mem_bothDue.mpr (.inr rfl)
  obtain ⟨l, W, passes⟩ := exists_passes pair (· = 0) due_both 0 0 bothDue.size
  have tried := (hall pair (· = 0) 2 bothDue 0 0 l W due_both homes passes _ west).1
  exact (passes.reached due_both).behind _ east_blocks _ west east_before_west tried

end BrokeredCalls.Outage
