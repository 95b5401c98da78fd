import BrokeredCalls.Proofs.Solo.Timing

/-!
How long the fire loop pauses. The clock never reads less than zero, so the time from a reading to a task
that is not due yet fits 63 bits, and the loop sleeps neither past that task nor past its poll interval.
-/

namespace BrokeredCalls

namespace Instant

theorem toInt_reading_nonneg (wall : Instant) : 0 ≤ wall.reading.toInt := by
  by_cases before : wall.nanos < 0
  · rw [reading_of_neg before]
    decide
  · rw [toInt_reading (Int.not_lt.mp before)]
    exact Int.le_min.mpr ⟨Int.not_lt.mp before, by decide⟩

end Instant

namespace Solo

open Network (Setup)
open Node.Deferred (Step nextStep)
open Program (Runs)

structure Counted (now t : FireTime) : Prop where
  signed : (t - now).toInt = t.toInt - now.toInt
  unsigned : ((t - now).toUInt64.toNat : Int) = t.toInt - now.toInt

theorem counted_of_lt {now t : FireTime} (nonneg : 0 ≤ now.toInt) (ahead : now < t) :
    Counted now t := by
  have lt : now.toInt < t.toInt := Int64.lt_iff_toInt_lt.mp ahead
  have upper : t.toInt < 2 ^ 63 := Int64.toInt_lt t
  have signed : (t - now).toInt = t.toInt - now.toInt := by
    rw [Int64.toInt_sub]
    exact Int.bmod_eq_of_le (by omega) (by omega)
  have positive : 0 ≤ (t - now).toInt := by omega
  refine ⟨signed, ?_⟩
  rw [Int64.toNat_toUInt64_of_le (Int64.le_iff_toInt_le.mpr positive)]
  exact (Int.toNat_of_nonneg positive).trans signed

inductive Stepped (poll : Duration) (now : FireTime) (W : World) : Step → World → Prop
  | fires (t : DelayedTask) (mem : t ∈ W.pending) (first : ∀ u ∈ W.pending, u = t ∨ t.Before u)
    (due : t.fireAt ≤ now) : Stepped poll now W (.fire t) { W with pending := W.pending.erase t }
  | waits (t : DelayedTask) (mem : t ∈ W.pending) (first : ∀ u ∈ W.pending, u = t ∨ t.Before u)
    (ahead : now < t.fireAt) (d : Duration)
    (left : (d.nanos : Int) = min (t.fireAt.toInt - now.toInt) poll.nanos) :
    Stepped poll now W (.sleep d) W
  | rests (empty : ∀ t, t ∉ W.pending) : Stepped poll now W (.sleep poll) W

variable {node : Setup} {W W' : World} {wall : Instant} {poll : Duration} {now : FireTime} {step : Step}

theorem nanos_ahead {t : DelayedTask} (nonneg : 0 ≤ now.toInt) (ahead : now < t.fireAt) :
    ((min ⟨(t.fireAt - now).toInt.toNat⟩ poll : Duration).nanos : Int) =
      min (t.fireAt.toInt - now.toInt) poll.nanos := by
  have later : now.toInt < t.fireAt.toInt := Int64.lt_iff_toInt_lt.mp ahead
  rw [Duration.min_nanos, (counted_of_lt nonneg ahead).signed]
  dsimp only
  omega

theorem stepped_next (nonneg : 0 ≤ now.toInt) (W : World) :
    Stepped poll now W (.of poll now (W.pending.next now).1)
      { W with pending := (W.pending.next now).2 } := by
  cases first : W.pending.peek with
  | none =>
    have empty : W.pending.tasks = [] := List.head?_eq_none_iff.mp first
    rw [TaskQueue.next_of_nil empty]
    refine .rests fun t mem => ?_
    rw [TaskQueue.mem_def, empty] at mem
    cases mem
  | some t =>
    obtain ⟨mem, least⟩ := TaskQueue.peek_eq_some_iff.mp first
    by_cases due : t.fireAt ≤ now
    · rw [TaskQueue.next_eq_due_iff.mpr ⟨first, due, rfl⟩]
      exact .fires t mem least due
    · have ahead : now < t.fireAt := Int64.not_le.mp due
      rw [TaskQueue.next_of_first_later first ahead]
      exact .waits t mem least ahead _ (nanos_ahead nonneg ahead)

theorem next_of_stepped (nonneg : 0 ≤ now.toInt) (stepped : Stepped poll now W step W') :
    step = .of poll now (W.pending.next now).1 ∧
      W' = { W with pending := (W.pending.next now).2 } := by
  cases stepped with
  | fires t mem least due =>
    rw [TaskQueue.next_eq_due_iff.mpr ⟨TaskQueue.peek_eq_some_iff.mpr ⟨mem, least⟩, due, rfl⟩]
    exact ⟨rfl, rfl⟩
  | waits t mem least ahead d left =>
    rw [TaskQueue.next_of_first_later (TaskQueue.peek_eq_some_iff.mpr ⟨mem, least⟩) ahead]
    have same : d.nanos = (min ⟨(t.fireAt - now).toInt.toNat⟩ poll : Duration).nanos :=
      Int.ofNat.inj (left.trans (nanos_ahead nonneg ahead).symm)
    exact ⟨congrArg (fun n => Step.sleep ⟨n⟩) same, rfl⟩
  | rests empty =>
    rw [TaskQueue.next_of_nil (List.eq_nil_iff_forall_not_mem.mpr empty)]
    exact ⟨rfl, rfl⟩

theorem Stepped.within {d : Duration} (stepped : Stepped poll now W (.sleep d) W') :
    W' = W ∧ d ≤ poll ∧ ∀ t ∈ W.pending, (d.nanos : Int) ≤ t.fireAt.toInt - now.toInt := by
  cases stepped with
  | waits t mem first ahead d left =>
    refine ⟨rfl, ?_, fun u among => ?_⟩
    · rw [Duration.le_def]
      omega
    · have le : t.fireAt.toInt ≤ u.fireAt.toInt := by
        rcases first u among with rfl | before
        · exact Int.le_refl _
        · exact Int64.le_iff_toInt_le.mp before.fireAt_le
      omega
  | rests empty => exact ⟨rfl, Nat.le_refl _, fun t mem => absurd mem (empty t)⟩

structure Paced (node : Setup) (wall : Instant) (W : World) : Prop where
  steps : ∃ step W', Runs (Serves node wall.reading) (nextStep node.shared) W step W'
  stepped : ∀ step W', Runs (Serves node wall.reading) (nextStep node.shared) W step W' ↔
    Stepped node.shared.config.pollInterval wall.reading W step W'
  within : ∀ d W', Runs (Serves node wall.reading) (nextStep node.shared) W (.sleep d) W' →
    W' = W ∧ d ≤ node.shared.config.pollInterval ∧
      ∀ t ∈ W.pending, (d.nanos : Int) ≤ t.fireAt.toInt - wall.reading.toInt
  counted : ∀ t, wall.reading < t → Counted wall.reading t

/-- The loop fires the first task once it is due, and otherwise sleeps for no longer than its poll
interval and the exact time left, whatever the times in its list and whatever the clock shows. -/
theorem nextStep_paced (node : Setup) (wall : Instant) (W : World) : Paced node wall W := by
  have nonneg : 0 ≤ wall.reading.toInt := wall.toInt_reading_nonneg
  have stepped (step : Step) (W' : World) :
      Runs (Serves node wall.reading) (nextStep node.shared) W step W' ↔
        Stepped node.shared.config.pollInterval wall.reading W step W' := by
    rw [nextStep_run]
    refine ⟨?_, next_of_stepped nonneg⟩
    rintro ⟨rfl, rfl⟩
    exact stepped_next nonneg W
  exact {
    steps := ⟨_, _, nextStep_run.mpr ⟨rfl, rfl⟩⟩
    stepped := stepped
    within := fun d W' run => ((stepped _ W').mp run).within
    counted := fun t ahead => counted_of_lt nonneg ahead }

end Solo
end BrokeredCalls
