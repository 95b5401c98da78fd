import BrokeredCalls.Proofs.Retry.Courses

/-!
How long the delays of a retried operation are. The longest delay bounds every one but the first; a delay
of `2 ^ 64` seconds or more, before it is capped or with its jitter, ends everything.
-/

namespace BrokeredCalls.Retry

open Binary

variable {α : Type} {c : RetryConfig} {outcome : Nat → Except Error α} {draw : Nat → Draw} {i n : Nat}
  {d : Duration} {acts : List Act} {ending : Except Breakdown (Except Error α)}

theorem verdict_counts {limit : Nat} {r : Except Error α} {why : Breakdown}
    (h : verdict limit r = .error why) : why = .count := by
  rcases verdict_cases limit r with settled | exceeds
  · rw [settled] at h
    cases h
  · rw [exceeds] at h
    cases h
    rfl

theorem Goes.waits (goes : Goes c outcome draw i n d acts ending) :
    (Course.mk acts ending).waits = [] ∨
      ∃ ds, (Course.mk acts ending).waits = d :: ds ∧ ∀ x ∈ ds, x ≤ c.maxDelay := by
  induction goes with
  | ended last => exact .inl rfl
  | torn failed tears => exact .inl rfl
  | @broken i n d length why failed stretches breaks => exact .inr ⟨[], rfl, List.forall_mem_nil _⟩
  | @again i n d length next acts ending failed stretches follows rest ih =>
    refine .inr ⟨(Course.mk acts ending).waits, rfl, ?_⟩
    rcases ih with none | ⟨ds, some, capped⟩
    · rw [none]
      exact List.forall_mem_nil _
    · rw [some]
      exact List.forall_mem_cons.mpr ⟨c.nextDelay_le follows, capped⟩

theorem Goes.breaks (sign : c.multiplier.isNegative = false)
    (goes : Goes c outcome draw i n d acts ending) :
    (ending = .error (.delay .tooLarge) ∧
        ∃ x ∈ (Course.mk acts ending).waits, ¬ Below (2 ^ 64) (c.product x)) ∨
      (∀ why, ending ≠ .error (.delay why)) ∧
        ∀ x ∈ (Course.mk acts ending).waits, Below (2 ^ 64) (c.product x) := by
  induction goes with
  | @ended i n d last =>
    refine .inr ⟨fun why h => ?_, List.forall_mem_nil _⟩
    cases verdict_counts h
  | torn failed tears => exact .inr ⟨nofun, List.forall_mem_nil _⟩
  | @broken i n d length why failed stretches breaks =>
    rcases c.nextDelay_cases sign d with ⟨next, follows, -⟩ | ⟨large, more⟩
    · rw [breaks] at follows
      cases follows
    · rw [breaks] at large
      cases large
      exact .inl ⟨rfl, d, List.mem_singleton_self d, more⟩
  | @again i n d length next acts ending failed stretches follows rest ih =>
    rcases c.nextDelay_cases sign d with ⟨-, -, less⟩ | ⟨large, -⟩
    · rcases ih with ⟨hend, x, hx, more⟩ | ⟨hend, hless⟩
      · exact .inl ⟨hend, x, List.mem_cons_of_mem d hx, more⟩
      · exact .inr ⟨hend, List.forall_mem_cons.mpr ⟨less, hless⟩⟩
    · rw [follows] at large
      cases large

theorem Goes.jitters (goes : Goes c outcome draw i n d acts ending) :
    (∃ why, ending = .error (.jitter why)) ↔
      (Course.mk acts ending).waits.length < n ∧
        Retryable (outcome (i + (Course.mk acts ending).waits.length)) ∧
          Torn c draw i d (Course.mk acts ending).waits.length := by
  induction goes with
  | @ended i n d last =>
    constructor
    · rintro ⟨why, h⟩
      cases verdict_counts h
    · rintro ⟨pos, failed, -⟩
      exact absurd (last failed) (Nat.ne_of_gt pos)
  | @torn i n d why failed tears =>
    exact ⟨fun _ => ⟨n.succ_pos, failed, torn_zero_iff.mpr (jittered_error tears).2⟩, fun _ => ⟨why, rfl⟩⟩
  | @broken i n d length why failed stretches breaks =>
    constructor
    · rintro ⟨why, h⟩
      cases h
    · rintro ⟨-, -, x, due, -⟩
      have hdue := RetryConfig.due_error breaks 0
      rw [show c.due d 1 = .ok x from due] at hdue
      cases hdue
  | @again i n d length next acts ending failed stretches follows rest ih =>
    have hwaits : (Course.mk (.attempt :: .wait d :: acts) ending).waits.length =
        (Course.mk acts ending).waits.length + 1 := rfl
    have hshift : i + ((Course.mk acts ending).waits.length + 1) =
        i + 1 + (Course.mk acts ending).waits.length := by omega
    rw [hwaits, torn_succ_iff follows, Nat.succ_lt_succ_iff, hshift]
    exact ih

theorem Goes.jitter_tooLarge {why : Duration.Unrepresentable}
    (goes : Goes c outcome draw i n d acts ending) (h : ending = .error (.jitter why)) :
    why = .tooLarge := by
  induction goes with
  | ended last => cases verdict_counts h
  | torn failed tears =>
    cases h
    exact (jittered_error tears).1
  | broken failed stretches breaks => cases h
  | again failed stretches follows rest ih => exact ih h

/-- What bounds the waits of an operation, and when a delay or its jitter breaks it off. -/
structure Capped (c : RetryConfig) (outcome : Nat → Except Error α) (draw : Nat → Draw)
    (went : Course α) : Prop where
  later : went.waits = [] ∨
    ∃ ds, went.waits = c.initialDelay :: ds ∧ ∀ d ∈ ds, d ≤ c.maxDelay
  all : c.initialDelay ≤ c.maxDelay → ∀ d ∈ went.waits, d ≤ c.maxDelay
  breaks : (∃ why, went.ending = .error (.delay why)) ↔
    ∃ d ∈ went.waits, ¬ Below (2 ^ 64) (c.product d)
  jitters : (∃ why, went.ending = .error (.jitter why)) ↔
    went.waits.length < c.maxAttempts.toNat ∧ Retryable (outcome went.waits.length) ∧
      Torn c draw 0 c.initialDelay went.waits.length
  tooLarge : ∀ why, went.ending = .error (.delay why) ∨ went.ending = .error (.jitter why) →
    why = .tooLarge
  moderate : ∀ a b : Nat, c.Moderate a b → c.initialDelay ≤ .ofSeconds (2 ^ a) →
    ∀ why, went.ending ≠ .error (.delay why)
  steady : c.initialDelay ≤ .ofSeconds (2 ^ 61) → c.maxDelay ≤ .ofSeconds (2 ^ 61) →
    ∀ why, went.ending ≠ .error (.jitter why)

theorem program_capped (c : RetryConfig) (outcome : Nat → Except Error α) (draw : Nat → Draw)
    (sign : c.multiplier.isNegative = false) :
    Capped c outcome draw (course outcome draw 0 [] (program (some c))) := by
  obtain ⟨acts, ending, goes, same⟩ :=
    course_loop c outcome draw 0 c.maxAttempts.toNat c.initialDelay []
  have hcourse : course outcome draw 0 [] (program (some c)) = ⟨acts, ending⟩ := same
  rw [hcourse]
  have later := goes.waits
  have breaks := goes.breaks sign
  have jitters := goes.jitters
  rw [Nat.zero_add] at jitters
  have bounded {bound : Duration} (first : c.initialDelay ≤ bound) (rest : c.maxDelay ≤ bound) :
      ∀ d ∈ (Course.mk acts ending).waits, d ≤ bound := by
    rcases later with none | ⟨ds, some, capped⟩
    · rw [none]
      exact List.forall_mem_nil _
    · rw [some]
      exact List.forall_mem_cons.mpr ⟨first, fun d hd => Nat.le_trans (capped d hd) rest⟩
  refine ⟨later, fun first => bounded first (Nat.le_refl _), ?_, jitters, ?_, ?_, ?_⟩
  · rcases breaks with ⟨hend, broken⟩ | ⟨hend, less⟩
    · exact ⟨fun _ => broken, fun _ => ⟨_, hend⟩⟩
    · constructor
      · rintro ⟨why, h⟩
        exact absurd h (hend why)
      · rintro ⟨d, hd, more⟩
        exact absurd (less d hd) more
  · rintro why (h | h)
    · rcases breaks with ⟨hend, -⟩ | ⟨hend, -⟩
      · rw [hend] at h
        cases h
        rfl
      · exact absurd h (hend why)
    · exact goes.jitter_tooLarge h
  · intro a b moderate first why h
    rcases breaks with ⟨-, d, hd, more⟩ | ⟨hend, -⟩
    · exact more (c.product_below (bounded first moderate.longest d hd) moderate.multiplier moderate.room)
    · exact hend why h
  · intro first longest why h
    obtain ⟨-, -, x, due, more⟩ := jitters.mp ⟨why, h⟩
    exact more (stretched_below (RetryConfig.due_le first longest due) _)

theorem program_capped_default :
    RetryConfig.default.multiplier.isNegative = false ∧
      Capped .default downAtFirst (fun _ => 0)
        (course downAtFirst (fun _ => 0) 0 [] (program (some .default))) :=
  ⟨by decide, program_capped .default downAtFirst (fun _ => 0) (by decide)⟩

/-- A delay too large is not capped, though the multiplier is finite; neither is the first delay, and
that may be too large with its jitter. -/
theorem not_always_capped :
    Below (2 ^ 127) (Binary.single.ofNat (10 ^ 38)) ∧
    (course downAtFirst (fun _ => 500) 0 [] (program (some ⟨1, Binary.single.ofNat (10 ^ 38),
      .ofSeconds 1, .ofSeconds 5⟩))).ending = .error (.delay .tooLarge) ∧
    (course downAtFirst (fun _ => 500) 0 [] (program (some ⟨1, Binary.single.ofNat 2, .ofSeconds 1,
      .ofMillis 10⟩))).waits = [.ofSeconds 1] ∧
    (course downAtFirst (fun _ => 500) 0 [] (program (some distant))).ending =
      .error (.jitter .tooLarge) := by
  refine ⟨?_, by decide +kernel, by decide +kernel, by decide +kernel⟩
  exact ⟨false, 9860761, 103, by decide +kernel, by norm_num⟩

end BrokeredCalls.Retry
