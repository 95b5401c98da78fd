import BrokeredCalls.Proofs.Solo.World

/-!
When the fire loop finds a task due. The clock reading stands for the wall clock between the epoch and
the last fire time, and for the last fire time everywhere else. After the last fire time that makes no
difference; before the epoch it makes every task due.
-/

namespace BrokeredCalls

namespace Instant

theorem reading_of_neg {wall : Instant} (h : wall.nanos < 0) : wall.reading = Int64.maxValue := by
  simp [reading, fireTime, h]

theorem toInt_reading {wall : Instant} (h : 0 ≤ wall.nanos) :
    wall.reading.toInt = min wall.nanos Int64.maxValue.toInt := by
  have notNeg : ¬ wall.nanos < 0 := Int.not_lt.mpr h
  by_cases hle : wall.nanos ≤ Int64.maxValue.toInt
  · have lower : -2 ^ 63 ≤ wall.nanos := by omega
    have upper : wall.nanos < 2 ^ 63 := Int.lt_add_one_of_le hle
    simp only [reading, fireTime, notNeg, hle, if_false, if_true]
    rw [Int64.toInt_ofInt_of_le lower upper, Int.min_eq_left hle]
  · simp only [reading, fireTime, notNeg, hle, if_false]
    rw [Int.min_eq_right (Int.le_of_lt (Int.not_le.mp hle))]

theorem le_reading_iff {wall : Instant} {t : FireTime} :
    t ≤ wall.reading ↔ wall.nanos < 0 ∨ t.toInt ≤ wall.nanos := by
  have latest : t.toInt ≤ Int64.maxValue.toInt := Int64.toInt_le t
  rw [Int64.le_iff_toInt_le]
  by_cases h : wall.nanos < 0
  · simp [reading_of_neg h, h, latest]
  · rw [toInt_reading (Int.not_lt.mp h), Int.le_min]
    simp [h, latest]

end Instant

namespace Solo

open Network (Setup)
open Program (Runs)

variable {node : Setup} {W W' : World} {wall : Instant} {t : DelayedTask}

theorem step_of_next_eq_fire {poll : Duration} {now : FireTime} {next : TaskQueue.Next} :
    Node.Deferred.Step.of poll now next = .fire t ↔ next = .due t := by
  cases next <;> simp [Node.Deferred.Step.of]

/-- The first pending task is fired if its time has come, and before the epoch whatever its time. -/
theorem nextStep_fires_iff :
    Runs (Serves node wall.reading) (Node.Deferred.nextStep node.shared) W (.fire t) W' ↔
      W.pending.peek = some t ∧ (wall.nanos < 0 ∨ t.fireAt.toInt ≤ wall.nanos) ∧
        W' = { W with pending := W.pending.erase t } := by
  rw [nextStep_run, eq_comm, step_of_next_eq_fire]
  constructor
  · rintro ⟨due, rfl⟩
    obtain ⟨first, le, gone⟩ := TaskQueue.next_eq_due_iff.mp (Prod.ext due rfl)
    exact ⟨first, Instant.le_reading_iff.mp le, congrArg (World.mk W.hub · W.ran) gone⟩
  · rintro ⟨first, reached, rfl⟩
    have looked := TaskQueue.next_eq_due_iff.mpr ⟨first, Instant.le_reading_iff.mpr reached, rfl⟩
    simp [looked]

/-- A task of the year 2027, pending while the clock shows a second before the epoch. -/
def ahead : World := ⟨.empty, .ofList [⟨1800000000000000000, "s"⟩], []⟩

theorem not_only_when_reached :
    ¬ ∀ (node : Setup) (W W' : World) (wall : Instant) (t : DelayedTask),
      Runs (Serves node wall.reading) (Node.Deferred.nextStep node.shared) W (.fire t) W' →
        t.fireAt.toInt ≤ wall.nanos := by
  intro hall
  have fires : Runs (Serves ⟨⟨[], .default⟩, .empty⟩ (Instant.mk (-1000000000)).reading)
      (Node.Deferred.nextStep ⟨[], .default⟩) ahead (.fire ⟨1800000000000000000, "s"⟩)
      { ahead with pending := ahead.pending.erase ⟨1800000000000000000, "s"⟩ } :=
    nextStep_fires_iff.mpr ⟨rfl, .inl (by decide), rfl⟩
  have reached := hall _ _ _ _ _ fires
  exact absurd reached (by decide)

end Solo
end BrokeredCalls
