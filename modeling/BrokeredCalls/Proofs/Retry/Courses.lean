import Mathlib.Data.ENat.Lattice
import BrokeredCalls.Proofs.Retry
import BrokeredCalls.Proofs.Retry.Delays

/-!
Retried operations from their first attempt to their end. An attempt follows each wait and a wait each
failed attempt but the last; the outcome of the last attempt is the result, unless the failures are more
than their count holds.
-/

namespace BrokeredCalls.Retry

variable {α : Type}

def Retryable (r : Except Error α) : Prop := ∃ text, r = .error (.transportRetryable text)

/-- The least number with a property, if there is one. -/
noncomputable def firstAt (p : Nat → Prop) : ℕ∞ := ⨅ (n : Nat) (_ : p n), (n : ℕ∞)

theorem le_firstAt_iff {p : Nat → Prop} {n : Nat} : (n : ℕ∞) ≤ firstAt p ↔ ∀ i < n, ¬ p i := by
  simp only [firstAt, le_iInf_iff, Nat.cast_le]
  constructor
  · intro h i hi holds
    exact absurd (h i holds) (Nat.not_le.mpr hi)
  · intro h i holds
    by_contra hi
    exact h i (Nat.not_le.mp hi) holds

theorem firstAt_le {p : Nat → Prop} {n : Nat} (holds : p n) : firstAt p ≤ n :=
  iInf₂_le n holds

theorem firstAt_eq_top {p : Nat → Prop} (never : ∀ n, ¬ p n) : firstAt p = ⊤ := by
  simp only [firstAt, iInf_eq_top]
  intro n holds
  exact absurd holds (never n)

/-- How many outcomes there are before the first that is not a retryable failure. -/
noncomputable def leading (outcome : Nat → Except Error α) : ℕ∞ :=
  firstAt fun n => ¬ Retryable (outcome n)

theorem le_leading_iff {outcome : Nat → Except Error α} {n : Nat} :
    (n : ℕ∞) ≤ leading outcome ↔ ∀ i < n, Retryable (outcome i) := by
  simp only [leading, le_firstAt_iff, not_not]

theorem succ_le_leading {outcome : Nat → Except Error α} {n : Nat}
    (before : ∀ i < n, Retryable (outcome i)) (failed : Retryable (outcome n)) :
    ((n + 1 : Nat) : ℕ∞) ≤ leading outcome := by
  refine le_leading_iff.mpr fun i hi => ?_
  rcases Nat.lt_succ_iff_lt_or_eq.mp hi with hi | rfl
  · exact before i hi
  · exact failed

def Act.between (ds : List Duration) : List Act :=
  .attempt :: ds.flatMap fun d => [.wait d, .attempt]

theorem Act.between_cons (d : Duration) (ds : List Duration) :
    between (d :: ds) = .attempt :: .wait d :: between ds := rfl

namespace Course

variable {c : Course α} {ds : List Duration}

theorem attempts_between (h : c.acts = Act.between ds) : c.attempts = ds.length + 1 := by
  rw [attempts, h]
  clear h
  induction ds with
  | nil => rfl
  | cons d ds ih =>
    have hwait : Act.wait d ≠ .attempt := by
      intro h
      cases h
    rw [Act.between_cons, List.count_cons_self, List.count_cons_of_ne hwait, ih]
    rfl

theorem waits_between (h : c.acts = Act.between ds) : c.waits = ds := by
  rw [waits, h]
  clear h
  induction ds with
  | nil => rfl
  | cons d ds ih => exact congrArg (d :: ·) ih

end Course

/-- What comes of the last attempt. A retryable failure is counted before it is reported. -/
def verdict (limit : Nat) : Except Error α → Except Breakdown (Except Error α)
  | .error (.transportRetryable text) =>
    if limit + 1 < UInt32.size then .ok (.error (.transportRetryable text)) else .error .count
  | r => .ok r

theorem verdict_settled {limit : Nat} {r : Except Error α} (h : ¬ Retryable r) :
    verdict limit r = .ok r := by
  cases r with
  | ok v => rfl
  | error e =>
    cases e with
    | transportRetryable text => exact absurd ⟨text, rfl⟩ h
    | _ => rfl

theorem verdict_counted {limit : Nat} {r : Except Error α} (h : limit + 1 < UInt32.size) :
    verdict limit r = .ok r := by
  by_cases failed : Retryable r
  · obtain ⟨text, rfl⟩ := failed
    exact if_pos h
  · exact verdict_settled failed

theorem verdict_overflow {limit : Nat} {r : Except Error α} (failed : Retryable r)
    (h : ¬ limit + 1 < UInt32.size) : verdict limit r = .error .count := by
  obtain ⟨text, rfl⟩ := failed
  exact if_neg h

theorem verdict_cases (limit : Nat) (r : Except Error α) :
    verdict limit r = .ok r ∨ verdict limit r = .error .count := by
  by_cases hlimit : limit + 1 < UInt32.size
  · exact .inl (verdict_counted hlimit)
  · by_cases failed : Retryable r
    · exact .inr (verdict_overflow failed hlimit)
    · exact .inl (verdict_settled failed)

section

variable {c : RetryConfig} {outcome : Nat → Except Error α} {draw : Nat → Draw} {i n : Nat}
  {d next : Duration} {acts : List Act} {ending : Except Breakdown (Except Error α)}

inductive Goes (c : RetryConfig) (outcome : Nat → Except Error α) (draw : Nat → Draw) :
    Nat → Nat → Duration → List Act → Except Breakdown (Except Error α) → Prop
  | ended {i n : Nat} {d : Duration} (last : Retryable (outcome i) → n = 0) :
    Goes c outcome draw i n d [.attempt] (verdict c.maxAttempts.toNat (outcome i))
  | torn {i n : Nat} {d : Duration} {why : Duration.Unrepresentable} (failed : Retryable (outcome i))
    (tears : jittered d (draw (i + 1)) = .error why) :
    Goes c outcome draw i (n + 1) d [.attempt] (.error (.jitter why))
  | broken {i n : Nat} {d length : Duration} {why : Duration.Unrepresentable}
    (failed : Retryable (outcome i)) (stretches : jittered d (draw (i + 1)) = .ok length)
    (breaks : c.nextDelay d = .error why) :
    Goes c outcome draw i (n + 1) d [.attempt, .wait d] (.error (.delay why))
  | again {i n : Nat} {d length next : Duration} {acts : List Act}
    {ending : Except Breakdown (Except Error α)} (failed : Retryable (outcome i))
    (stretches : jittered d (draw (i + 1)) = .ok length) (follows : c.nextDelay d = .ok next)
    (rest : Goes c outcome draw (i + 1) n next acts ending) :
    Goes c outcome draw i (n + 1) d (.attempt :: .wait d :: acts) ending

theorem course_giveUp (past : List Act) (text : String) :
    course outcome draw i past (giveUp c text) =
      ⟨past.reverse, verdict c.maxAttempts.toNat (.error (.transportRetryable text) : Except Error α)⟩ := by
  unfold giveUp verdict
  split
  · rfl
  · rfl

theorem course_loop_settled (past : List Act) (settled : ¬ Retryable (outcome i)) :
    course outcome draw i past (loop c n d) = ⟨past.reverse ++ [.attempt], .ok (outcome i)⟩ := by
  obtain ⟨again, same⟩ := loop_eq (α := α) c n d
  rw [same, course]
  cases h : outcome i with
  | ok v => simp only [course, List.reverse_cons]
  | error e =>
    cases e with
    | transportRetryable text => exact absurd ⟨text, h⟩ settled
    | _ => simp only [course, List.reverse_cons]

theorem course_loop (c : RetryConfig) (outcome : Nat → Except Error α) (draw : Nat → Draw) (i n : Nat)
    (d : Duration) (past : List Act) : ∃ acts ending, Goes c outcome draw i n d acts ending ∧
      course outcome draw i past (loop c n d) = ⟨past.reverse ++ acts, ending⟩ := by
  -- On the attempts left; what was done before them is carried along.
  induction n generalizing i d past with
  | zero =>
    refine ⟨_, _, .ended fun _ => rfl, ?_⟩
    by_cases failed : Retryable (outcome i)
    · obtain ⟨text, h⟩ := failed
      rw [loop_zero, course, h]
      exact (course_giveUp _ text).trans (by rw [List.reverse_cons])
    · rw [course_loop_settled past failed, verdict_settled failed]
  | succ n ih =>
    by_cases failed : Retryable (outcome i)
    · obtain ⟨text, h⟩ := failed
      rw [loop_succ, course, h]
      simp only [course]
      cases hj : jittered d (draw (i + 1)) with
      | error why =>
        refine ⟨_, _, .torn ⟨text, h⟩ hj, ?_⟩
        simp [breakOff, course]
      | ok length =>
        simp only [course]
        cases hd : c.nextDelay d with
        | error why =>
          refine ⟨_, _, .broken ⟨text, h⟩ hj hd, ?_⟩
          simp [breakOff, course]
        | ok next =>
          obtain ⟨acts, ending, goes, same⟩ := ih (i + 1) next (.wait d :: .attempt :: past)
          refine ⟨_, _, .again ⟨text, h⟩ hj hd goes, ?_⟩
          simp [same]
    · refine ⟨_, _, .ended fun h => absurd h failed, ?_⟩
      rw [course_loop_settled past failed, verdict_settled failed]

/-- The delay due after `n` waits is no length of time with its jitter. -/
def Torn (c : RetryConfig) (draw : Nat → Draw) (i : Nat) (d : Duration) (n : Nat) : Prop :=
  ∃ x, c.due d n = .ok x ∧ ¬ Binary.Below (2 ^ 64) (stretched x (draw (i + n + 1)))

theorem torn_zero_iff : Torn c draw i d 0 ↔ ¬ Binary.Below (2 ^ 64) (stretched d (draw (i + 1))) := by
  constructor
  · rintro ⟨x, hx, more⟩
    cases hx
    exact more
  · intro more
    exact ⟨d, rfl, more⟩

theorem torn_succ_iff (follows : c.nextDelay d = .ok next) :
    Torn c draw i d (n + 1) ↔ Torn c draw (i + 1) next n := by
  have hshift : i + (n + 1) + 1 = i + 1 + n + 1 := by omega
  simp only [Torn, RetryConfig.due_succ follows, hshift]

/-- What ends attempts of which `m` were followed by a wait, when `n` waits are allowed. -/
inductive Ends (limit n : Nat) (outcome : Nat → Except Error α) (torn : Nat → Prop) (m : Nat) :
    Except Breakdown (Except Error α) → Prop
  | settled (last : Retryable (outcome m) → m = n) : Ends limit n outcome torn m (verdict limit (outcome m))
  | torn (less : m < n) (failed : Retryable (outcome m)) (tears : torn m) :
    Ends limit n outcome torn m (.error (.jitter .tooLarge))

theorem Ends.cases {limit m : Nat} {torn : Nat → Prop} (ends : Ends limit n outcome torn m ending)
    (before : ∀ k < m, Retryable (outcome k)) :
    (min (leading outcome) n ≤ m ∧ ending = verdict limit (outcome m)) ∨
      (firstAt torn ≤ m ∧ (m : ℕ∞) < min (leading outcome) n ∧ ending = .error (.jitter .tooLarge)) := by
  cases ends with
  | settled last =>
    refine .inl ⟨?_, rfl⟩
    by_cases failed : Retryable (outcome m)
    · rw [← last failed]
      exact min_le_right _ _
    · exact (min_le_left _ _).trans (firstAt_le failed)
  | torn less failed tears =>
    have hm : (m : ℕ∞) < (m + 1 : Nat) := Nat.cast_lt.mpr m.lt_succ_self
    have further : (m : ℕ∞) < leading outcome := hm.trans_le (succ_le_leading before failed)
    exact .inr ⟨firstAt_le tears, lt_min further (Nat.cast_lt.mpr less), rfl⟩

theorem Goes.between (goes : Goes c outcome draw i n d acts ending) (backs : c.Backs n d) :
    ∃ ds : List Duration, acts = Act.between ds ∧ ds.length ≤ n ∧
      (∀ k < ds.length, Retryable (outcome (i + k)) ∧ ¬ Torn c draw i d k) ∧
      Ends c.maxAttempts.toNat n (fun k => outcome (i + k)) (Torn c draw i d) ds.length ending := by
  induction goes with
  | @ended i n d last =>
    exact ⟨[], rfl, Nat.zero_le n, fun k hk => absurd hk k.not_lt_zero, .settled fun h => (last h).symm⟩
  | @torn i n d why failed tears =>
    obtain ⟨rfl, more⟩ := jittered_error tears
    exact ⟨[], rfl, Nat.zero_le _, fun k hk => absurd hk k.not_lt_zero,
      .torn n.succ_pos failed (torn_zero_iff.mpr more)⟩
  | broken failed stretches breaks =>
    obtain ⟨next, follows, -⟩ := backs
    rw [breaks] at follows
    cases follows
  | @again i n d length next acts ending failed stretches follows rest ih =>
    obtain ⟨next', follows', backs⟩ := backs
    obtain rfl : next = next' := Except.ok.inj (follows.symm.trans follows')
    obtain ⟨ds, rfl, hlen, before, ends⟩ := ih backs
    have hshift (k : Nat) : i + (k + 1) = i + 1 + k := by omega
    refine ⟨d :: ds, rfl, Nat.succ_le_succ hlen, fun k hk => ?_, ?_⟩
    · cases k with
      | zero => exact ⟨failed, fun torn => torn_zero_iff.mp torn (jittered_ok stretches)⟩
      | succ k =>
        rw [hshift, torn_succ_iff follows]
        exact before k (Nat.lt_of_succ_lt_succ hk)
    · rw [List.length_cons]
      cases ends with
      | settled last =>
        rw [← hshift] at last ⊢
        exact .settled fun h => congrArg (· + 1) (last h)
      | torn less failed tears =>
        rw [← hshift] at failed
        exact .torn (Nat.succ_lt_succ less) failed ((torn_succ_iff follows).mpr tears)

end

section

variable {config : Option RetryConfig} {outcome : Nat → Except Error α} {draw : Nat → Draw} {n : Nat}

def Feasible : Option RetryConfig → Prop
  | none => True
  | some c => c.Backs c.maxAttempts.toNat c.initialDelay

def Unbearable (draw : Nat → Draw) : Option RetryConfig → Nat → Prop
  | none, _ => False
  | some c, n => Torn c draw 0 c.initialDelay n

/-- How many waits there are before the first that is no length of time with its jitter. -/
noncomputable def bearable (draw : Nat → Draw) (config : Option RetryConfig) : ℕ∞ :=
  firstAt (Unbearable draw config)

theorem bearable_eq_top {c : RetryConfig} (first : c.initialDelay ≤ .ofSeconds (2 ^ 61))
    (longest : c.maxDelay ≤ .ofSeconds (2 ^ 61)) : bearable draw (some c) = ⊤ := by
  refine firstAt_eq_top fun n torn => ?_
  obtain ⟨d, due, more⟩ := torn
  exact more (stretched_below (RetryConfig.due_le first longest due) _)

theorem course_program (outcome : Nat → Except Error α) (draw : Nat → Draw)
    (feasible : Feasible config) :
    ∃ ds : List Duration, (course outcome draw 0 [] (program config)).acts = Act.between ds ∧
      ds.length ≤ retries config ∧ (∀ k < ds.length, Retryable (outcome k) ∧ ¬ Unbearable draw config k) ∧
      Ends (retries config) (retries config) outcome (Unbearable draw config) ds.length
        (course outcome draw 0 [] (program config)).ending := by
  cases config with
  | none =>
    refine ⟨[], rfl, Nat.zero_le _, fun k hk => absurd hk k.not_lt_zero, ?_⟩
    have once : (course outcome draw 0 [] (program none)).ending = verdict 0 (outcome 0) :=
      (verdict_counted (by decide)).symm
    rw [once]
    exact .settled fun _ => rfl
  | some c =>
    obtain ⟨acts, ending, goes, same⟩ :=
      course_loop c outcome draw 0 c.maxAttempts.toNat c.initialDelay []
    have h := goes.between feasible
    simp only [Nat.zero_add] at h
    rw [program, same]
    exact h

structure Exact (config : Option RetryConfig) (outcome : Nat → Except Error α) (draw : Nat → Draw)
    (c : Course α) : Prop where
  between : c.acts = Act.between c.waits
  often : (c.attempts : ℕ∞) =
    min (min (leading outcome) (retries config)) (bearable draw config) + 1
  alone : config = none → c.attempts = 1
  stops : ∀ i, ¬ Retryable (outcome i) → c.attempts ≤ i + 1
  last : min (leading outcome) (retries config) ≤ bearable draw config →
    retries config + 1 < UInt32.size ∨ leading outcome < UInt32.size →
      c.ending = .ok (outcome (c.attempts - 1))
  overflow : min (leading outcome) (retries config) ≤ bearable draw config →
    UInt32.size ≤ retries config + 1 → UInt32.size ≤ leading outcome → c.ending = .error .count
  torn : bearable draw config < min (leading outcome) (retries config) →
    c.ending = .error (.jitter .tooLarge)
  moderate : (∀ r ∈ config, r.initialDelay ≤ .ofSeconds (2 ^ 61) ∧ r.maxDelay ≤ .ofSeconds (2 ^ 61)) →
    bearable draw config = ⊤

theorem program_exact (config : Option RetryConfig) (outcome : Nat → Except Error α)
    (draw : Nat → Draw) (feasible : Feasible config) :
    Exact config outcome draw (course outcome draw 0 [] (program config)) := by
  obtain ⟨ds, hacts, hlen, before, ends⟩ := course_program outcome draw feasible
  have hattempts := Course.attempts_between hacts
  have hleading : (ds.length : ℕ∞) ≤ leading outcome := le_leading_iff.mpr fun k hk => (before k hk).1
  have hretries : (ds.length : ℕ∞) ≤ retries config := Nat.cast_le.mpr hlen
  have hbearable : (ds.length : ℕ∞) ≤ bearable draw config :=
    le_firstAt_iff.mpr fun k hk => (before k hk).2
  have hcases := ends.cases fun k hk => (before k hk).1
  -- Where no jitter breaks off, the last outcome is what the attempts come to.
  have settled (whole : min (leading outcome) (retries config) ≤ bearable draw config) :
      min (leading outcome) (retries config) ≤ ds.length ∧
        (course outcome draw 0 [] (program config)).ending =
          verdict (retries config) (outcome ds.length) := by
    rcases hcases with settled | ⟨torn, less, -⟩
    · exact settled
    · exact absurd (whole.trans torn) (not_le.mpr less)
  refine ⟨?_, ?_, ?_, ?_, ?_, ?_, ?_, ?_⟩
  · rw [Course.waits_between hacts]
    exact hacts
  · have often : (ds.length : ℕ∞) =
        min (min (leading outcome) (retries config)) (bearable draw config) := by
      refine le_antisymm (le_min (le_min hleading hretries) hbearable) ?_
      rcases hcases with ⟨le, -⟩ | ⟨torn, -, -⟩
      · exact (min_le_left _ _).trans le
      · exact (min_le_right _ _).trans torn
    rw [hattempts, ← often]
    rfl
  · rintro rfl
    rw [hattempts, Nat.eq_zero_of_le_zero hlen]
  · intro i stops
    rw [hattempts, Nat.succ_le_succ_iff]
    by_contra hi
    exact stops (before i (Nat.not_le.mp hi)).1
  · intro whole counted
    obtain ⟨le, hend⟩ := settled whole
    rw [hend, hattempts, Nat.add_sub_cancel]
    by_cases hlimit : retries config + 1 < UInt32.size
    · exact verdict_counted hlimit
    -- The limit is out of reach, so what ended the attempts is no retryable failure.
    · refine verdict_settled fun failed => ?_
      have further := succ_le_leading (fun k hk => (before k hk).1) failed
      rcases min_le_iff.mp le with le | le
      · exact absurd (Nat.cast_le.mp (further.trans le)) (Nat.not_succ_le_self _)
      · have hsize : UInt32.size ≤ ds.length + 1 :=
          (Nat.not_lt.mp hlimit).trans (Nat.succ_le_succ (Nat.cast_le.mp le))
        exact absurd (counted.resolve_left hlimit) (not_lt.mpr ((Nat.cast_le.mpr hsize).trans further))
  · intro whole hlimit hleading
    have hbound : ds.length < UInt32.size := by
      have : retries config < UInt32.size := retries_lt config
      omega
    rw [(settled whole).2]
    exact verdict_overflow (le_leading_iff.mp hleading _ hbound) (Nat.not_lt.mpr hlimit)
  · intro torn
    rcases hcases with ⟨le, -⟩ | ⟨-, -, hend⟩
    · exact absurd (torn.trans_le le) (not_lt.mpr hbearable)
    · exact hend
  · intro moderate
    cases config with
    | none => exact firstAt_eq_top fun _ => id
    | some c =>
      obtain ⟨first, longest⟩ := moderate c rfl
      exact bearable_eq_top first longest

theorem feasible_default : Feasible (some .default) := by
  have moderate : RetryConfig.default.Moderate 3 1 :=
    ⟨by decide, ⟨false, 8388608, -22, by decide, by norm_num⟩, by decide, by decide⟩
  exact moderate.backs (by decide) _

theorem runs_default_again {σ : Type} {serve : (interface α).Service σ} {n : Nat} {text : String}
    {s s₁ s₂ s₃ s' : σ} {r : Except Error α}
    (failed : serve s .attempt (.error (.transportRetryable text)) s₁) (drawn : serve s₁ .draw 0 s₂)
    (waited : serve s₂ (.wait (.ofMillis 100) (.ofMillis 75)) () s₃)
    (rest : Program.Runs serve (loop .default n (.ofMillis 200)) s₃ r s') :
    Program.Runs serve (loop .default (n + 1) RetryConfig.default.initialDelay) s r s' := by
  have stretches : jittered (.ofMillis 100) 0 = .ok (.ofMillis 75) := by decide +kernel
  have follows : RetryConfig.default.nextDelay (.ofMillis 100) = .ok (.ofMillis 200) := by
    decide +kernel
  exact runs_loop_again failed drawn stretches waited follows rest

def downAtFirst (n : Nat) : Except Error Nat :=
  if n = 0 then .error (.transportRetryable "down") else .ok n

theorem program_exact_second :
    Feasible (some .default) ∧
      Exact (some .default) downAtFirst (fun _ => 0)
        (course downAtFirst (fun _ => 0) 0 [] (program (some .default))) :=
  ⟨feasible_default, program_exact (some .default) downAtFirst (fun _ => 0) feasible_default⟩

/-- As many attempts as there can be, without a pause. -/
def endless : RetryConfig := ⟨4294967295, Binary.single.ofNat 0, ⟨0⟩, ⟨0⟩⟩

/-- One more attempt, after the longest time there is. -/
def distant : RetryConfig :=
  ⟨1, Binary.single.ofNat 0, ⟨UInt64.size * Duration.nanosPerSecond - 1⟩, ⟨0⟩⟩

def downForEver (_ : Nat) : Except Error Nat := .error (.transportRetryable "down")

theorem feasible_endless : Feasible (some endless) := by
  have moderate : endless.Moderate 0 0 :=
    ⟨by decide, ⟨false, 0, -149, by decide, by norm_num⟩, by decide, by decide⟩
  exact moderate.backs (by decide) _

theorem feasible_distant : Feasible (some distant) :=
  ⟨⟨0⟩, by decide +kernel, trivial⟩

/-- The last of all failures that may be retried is one too many for the count, and a delay that its
jitter makes too long is followed by no attempt. -/
theorem not_always_returned :
    (Feasible (some endless) ∧
      ¬ ∃ r, (course downForEver (fun _ => 0) 0 [] (program (some endless))).ending = .ok r) ∧
    Feasible (some distant) ∧
      (course downAtFirst (fun _ => 500) 0 [] (program (some distant))).acts = [.attempt] ∧
      (course downAtFirst (fun _ => 500) 0 [] (program (some distant))).ending =
        .error (.jitter .tooLarge) := by
  refine ⟨⟨feasible_endless, ?_⟩, feasible_distant, by decide +kernel, by decide +kernel⟩
  rintro ⟨r, hr⟩
  have exact := program_exact (some endless) downForEver (fun _ => 0) feasible_endless
  have whole : bearable (fun _ => 0) (some endless) = ⊤ := bearable_eq_top (by decide) (by decide)
  have down : leading downForEver = ⊤ := firstAt_eq_top fun n stops => stops ⟨"down", rfl⟩
  have hend := exact.overflow (whole ▸ le_top) (by decide) (down ▸ le_top)
  rw [hend] at hr
  cases hr

end
end BrokeredCalls.Retry
