import BrokeredCalls.Proofs.Number.Rounding
import BrokeredCalls.Retry

/-!
One delay from the last. The product of a delay and the multiplier is a length of time just if it is not
negative and is below `2 ^ 64` seconds; the delay that follows is never above the longest delay. So is the
product of a delay and its jitter.
-/

namespace BrokeredCalls

namespace Binary

def Below (bound : ℚ) (v : Binary) : Prop :=
  ∃ s m e, v = .finite s m e ∧ (m : ℚ) * 2 ^ e < bound

theorem AtMost.below {a b : ℚ} {v : Binary} (h : AtMost a v) (less : a < b) : Below b v := by
  obtain ⟨s, m, e, rfl, hm⟩ := h
  exact ⟨s, m, e, rfl, hm.trans_lt less⟩

theorem not_below_infinite (bound : ℚ) (s : Bool) : ¬ Below bound (.infinite s) := by
  rintro ⟨_, _, _, h, -⟩
  cases h

theorem not_below_nan (bound : ℚ) : ¬ Below bound .nan := by
  rintro ⟨_, _, _, h, -⟩
  cases h

theorem below_finite {bound : ℚ} {s : Bool} {m : Nat} {e : Int} :
    Below bound (.finite s m e) ↔ (m : ℚ) * 2 ^ e < bound := by
  constructor
  · rintro ⟨s, m, e, h, less⟩
    cases h
    exact less
  · intro less
    exact ⟨s, m, e, rfl, less⟩

theorem scale_zero (den : Nat) (e : Int) : (scale 0 den e).1 = 0 := by
  cases e with
  | ofNat e => rfl
  | negSucc e => exact Nat.zero_mul _

namespace Format

variable (f : Format)

theorem isNegative_round (s : Bool) (num den : Nat) (h : num = 0 ∨ s = false) :
    (f.round s num den).isNegative = false := by
  by_cases filled : num = 0
  · subst filled
    show (s && (0 != 0)) = false
    simp
  · obtain rfl : s = false := h.resolve_left filled
    rw [round_eq false filled]
    dsimp only
    split <;> simp [isNegative]

theorem isNegative_convert {v : Binary} (h : v.isNegative = false) :
    (f.convert v).isNegative = false := by
  cases v with
  | nan => rfl
  | infinite s => exact h
  | finite s m e =>
    refine f.isNegative_round s _ _ ?_
    cases s with
    | false => exact .inr rfl
    | true =>
      have hm : m = 0 := by simpa [isNegative] using h
      subst hm
      exact .inl (scale_zero 1 (-e))

theorem isNegative_mul {v w : Binary} (hv : v.isNegative = false) (hw : w.isNegative = false) :
    (f.mul v w).isNegative = false := by
  cases v with
  | nan => rfl
  | infinite s =>
    cases w with
    | nan => rfl
    | infinite t => simp_all [isNegative, mul]
    | finite t n k =>
      show (if n = 0 then nan else infinite (s != t)).isNegative = false
      split <;> simp_all [isNegative]
  | finite s m e =>
    cases w with
    | nan => rfl
    | infinite t =>
      show (if m = 0 then nan else infinite (t != s)).isNegative = false
      split <;> simp_all [isNegative]
    | finite t n k =>
      refine f.isNegative_round _ _ _ ?_
      by_cases hz : m * n = 0
      · left
        rw [hz]
        exact scale_zero 1 (-(e + k))
      · right
        obtain ⟨hm, hn⟩ := Nat.mul_ne_zero_iff.mp hz
        simp_all [isNegative]

theorem isNegative_addMagnitudes (v w : Binary) : (f.addMagnitudes v w).isNegative = false := by
  cases v <;> cases w <;>
    first
      | rfl
      | exact f.isNegative_round false _ _ (.inr rfl)

end Format
end Binary

namespace Duration

open Binary

theorem isNegative_toSeconds (d : Duration) : d.toSeconds.isNegative = false :=
  double.isNegative_addMagnitudes _ _

theorem ofSeconds?_cases {s : Binary} (h : s.isNegative = false) :
    (∃ d, ofSeconds? s = .ok d ∧ Below (2 ^ 64) s) ∨
      ofSeconds? s = .error .tooLarge ∧ ¬ Below (2 ^ 64) s := by
  unfold ofSeconds?
  rw [h, if_neg Bool.false_ne_true]
  cases s with
  | nan => exact .inr ⟨rfl, not_below_nan _⟩
  | infinite s => exact .inr ⟨rfl, not_below_infinite _ s⟩
  | finite s m e =>
    have hden : (0 : ℚ) < (scale m 1 (-e)).2 := Nat.cast_pos.mpr (scale_pos Nat.one_pos _)
    have hquot : ((scale m 1 (-e)).1 : ℚ) / (scale m 1 (-e)).2 = m * 2 ^ e := by
      rw [scale_eq, Nat.cast_one, div_one, zpow_neg, div_inv_eq_mul]
    have hlarge : UInt64.size * (scale m 1 (-e)).2 ≤ (scale m 1 (-e)).1 ↔
        ¬ Below (2 ^ 64) (.finite s m e) := by
      rw [below_finite, not_lt, ← hquot, le_div_iff₀ hden, ← Nat.cast_le (α := ℚ), Nat.cast_mul]
      norm_num [UInt64.size]
    dsimp only [ratio?]
    by_cases large : UInt64.size * (scale m 1 (-e)).2 ≤ (scale m 1 (-e)).1
    · rw [if_pos large]
      exact .inr ⟨rfl, hlarge.mp large⟩
    · rw [if_neg large]
      exact .inl ⟨_, rfl, not_not.mp (mt hlarge.mpr large)⟩

theorem toSeconds_atMost {d : Duration} {a : Nat} (h : d ≤ ofSeconds (2 ^ a)) (room : a + 1 < 1024) :
    AtMost (2 ^ ((a : Int) + 1)) d.toSeconds := by
  have hwhole : d.nanos / nanosPerSecond ≤ 2 ^ a := by
    calc d.nanos / nanosPerSecond ≤ 2 ^ a * nanosPerSecond / nanosPerSecond := Nat.div_le_div_right h
      _ = 2 ^ a := Nat.mul_div_cancel _ (by decide)
  have hrest : d.nanos % nanosPerSecond ≤ nanosPerSecond := (Nat.mod_lt _ (by decide)).le
  have hlimit : double.limit = 1024 := rfl
  refine Format.addMagnitudes_atMost (by decide) ?_ ?_ (by omega)
  · refine Format.round_atMost false (by decide) Nat.one_pos ?_ (by omega)
    rw [Nat.cast_one, div_one, zpow_natCast]
    exact_mod_cast hwhole
  · refine Format.round_atMost false (by decide) (by decide) ?_ (by omega)
    calc ((d.nanos % nanosPerSecond : Nat) : ℚ) / (nanosPerSecond : Nat)
        ≤ 1 := div_le_one_of_le₀ (by exact_mod_cast hrest) (by positivity)
      _ ≤ 2 ^ (a : Int) := one_le_zpow₀ one_le_two (by omega)

end Duration

namespace RetryConfig

open Binary

variable {c : RetryConfig} {d next : Duration}

/-- The delay after one, in seconds, before it is made a length of time and is capped. -/
def product (c : RetryConfig) (d : Duration) : Binary :=
  double.mul d.toSeconds (double.convert c.multiplier)

theorem nextDelay_eq (c : RetryConfig) (d : Duration) :
    c.nextDelay d = (Duration.ofSeconds? (c.product d)).map (min · c.maxDelay) := by
  unfold nextDelay
  show (Duration.ofSeconds? (c.product d) >>= fun x => pure (min x c.maxDelay)) = _
  cases Duration.ofSeconds? (c.product d) <;> rfl

theorem nextDelay_le (h : c.nextDelay d = .ok next) : next ≤ c.maxDelay := by
  rw [nextDelay_eq] at h
  cases hp : Duration.ofSeconds? (c.product d) with
  | error why =>
    rw [hp] at h
    cases h
  | ok p =>
    rw [hp] at h
    cases h
    exact Nat.min_le_right p.nanos c.maxDelay.nanos

theorem isNegative_product (h : c.multiplier.isNegative = false) (d : Duration) :
    (c.product d).isNegative = false :=
  double.isNegative_mul d.isNegative_toSeconds (double.isNegative_convert h)

theorem nextDelay_cases (h : c.multiplier.isNegative = false) (d : Duration) :
    (∃ next, c.nextDelay d = .ok next ∧ Below (2 ^ 64) (c.product d)) ∨
      c.nextDelay d = .error .tooLarge ∧ ¬ Below (2 ^ 64) (c.product d) := by
  rw [nextDelay_eq]
  rcases Duration.ofSeconds?_cases (isNegative_product h d) with ⟨p, hp, less⟩ | ⟨hp, more⟩
  · rw [hp]
    exact .inl ⟨_, rfl, less⟩
  · rw [hp]
    exact .inr ⟨rfl, more⟩

/-- Delays up to `2 ^ a` seconds under a multiplier up to `2 ^ b` stay below `2 ^ 64` seconds as long as
they keep two bits of room, one for the rounding of each delay. -/
theorem product_below {a b : Nat} (delay : d ≤ .ofSeconds (2 ^ a))
    (multiplier : AtMost (2 ^ b) c.multiplier) (room : a + b ≤ 62) : Below (2 ^ 64) (c.product d) := by
  have hlimit : double.limit = 1024 := rfl
  have hm : AtMost (2 ^ (b : Int)) (double.convert c.multiplier) := by
    refine Format.convert_atMost (by decide) ?_ (by omega)
    rwa [zpow_natCast]
  have hp : AtMost (2 ^ ((a : Int) + 1 + b)) (c.product d) :=
    Format.mul_atMost (by decide) (Duration.toSeconds_atMost delay (by omega)) hm (by omega)
  refine hp.below ?_
  rw [← zpow_natCast]
  exact zpow_lt_zpow_right₀ one_lt_two (by omega)

/-- The next so many delays after one are lengths of time. -/
def Backs (c : RetryConfig) : Nat → Duration → Prop
  | 0, _ => True
  | n + 1, d => ∃ next, c.nextDelay d = .ok next ∧ c.Backs n next

structure Moderate (c : RetryConfig) (a b : Nat) : Prop where
  sign : c.multiplier.isNegative = false
  multiplier : AtMost (2 ^ b) c.multiplier
  longest : c.maxDelay ≤ .ofSeconds (2 ^ a)
  room : a + b ≤ 62

theorem Moderate.backs {a b : Nat} (h : c.Moderate a b) (delay : d ≤ .ofSeconds (2 ^ a)) (n : Nat) :
    c.Backs n d := by
  induction n generalizing d with
  | zero => trivial
  | succ n ih =>
    rcases nextDelay_cases h.sign d with ⟨next, hnext, -⟩ | ⟨-, more⟩
    · exact ⟨next, hnext, ih (Nat.le_trans (nextDelay_le hnext) h.longest)⟩
    · exact absurd (product_below delay h.multiplier h.room) more

/-- The delay after so many waits, the first of them after the delay `d`. -/
def due (c : RetryConfig) : Duration → Nat → Except Duration.Unrepresentable Duration
  | d, 0 => .ok d
  | d, n + 1 => do c.due (← c.nextDelay d) n

theorem due_succ (follows : c.nextDelay d = .ok next) (n : Nat) : c.due d (n + 1) = c.due next n := by
  show (c.nextDelay d >>= fun next => c.due next n) = _
  rw [follows]
  rfl

theorem due_error {why : Duration.Unrepresentable} (breaks : c.nextDelay d = .error why) (n : Nat) :
    c.due d (n + 1) = .error why := by
  show (c.nextDelay d >>= fun next => c.due next n) = _
  rw [breaks]
  rfl

theorem due_le {bound : Duration} (first : d ≤ bound) (longest : c.maxDelay ≤ bound) {n : Nat}
    {x : Duration} (h : c.due d n = .ok x) : x ≤ bound := by
  induction n generalizing d with
  | zero =>
    cases h
    exact first
  | succ n ih =>
    cases follows : c.nextDelay d with
    | error why =>
      rw [due_error follows] at h
      cases h
    | ok next =>
      rw [due_succ follows] at h
      exact ih (Nat.le_trans (nextDelay_le follows) longest) h

end RetryConfig

namespace Retry

open Binary

variable {d : Duration}

/-- A delay with its jitter, in seconds, before it is made a length of time. -/
def stretched (d : Duration) (k : Draw) : Binary := double.mul d.toSeconds k.factor

theorem jittered_cases (d : Duration) (k : Draw) :
    (∃ length, jittered d k = .ok length ∧ Below (2 ^ 64) (stretched d k)) ∨
      jittered d k = .error .tooLarge ∧ ¬ Below (2 ^ 64) (stretched d k) :=
  Duration.ofSeconds?_cases
    (double.isNegative_mul d.isNegative_toSeconds (double.isNegative_addMagnitudes _ _))

theorem jittered_ok {k : Draw} {length : Duration} (h : jittered d k = .ok length) :
    Below (2 ^ 64) (stretched d k) := by
  rcases jittered_cases d k with ⟨-, -, less⟩ | ⟨large, -⟩
  · exact less
  · rw [large] at h
    cases h

theorem jittered_error {k : Draw} {why : Duration.Unrepresentable} (h : jittered d k = .error why) :
    why = .tooLarge ∧ ¬ Below (2 ^ 64) (stretched d k) := by
  rcases jittered_cases d k with ⟨length, fits, -⟩ | ⟨large, more⟩
  · rw [fits] at h
    cases h
  · rw [large] at h
    cases h
    exact ⟨rfl, more⟩

theorem Draw.factor_atMost (k : Draw) : AtMost (2 ^ (1 : Int)) k.factor := by
  have hthousandths : AtMost (2 ^ (0 : Int)) (double.round false k 1000) := by
    refine Format.round_atMost false (by decide) (by decide) ?_ (by decide)
    have hk : ((k : Nat) : ℚ) ≤ 1000 := by exact_mod_cast k.isLt.le
    rw [zpow_zero]
    exact div_le_one_of_le₀ hk (by norm_num)
  have hhalf : AtMost (2 ^ (0 : Int)) (double.round false 1 2) :=
    Format.round_atMost false (by decide) (by decide) (by norm_num) (by decide)
  have hbase : AtMost (2 ^ (0 : Int)) (double.round false 3 4) :=
    Format.round_atMost false (by decide) (by decide) (by norm_num) (by decide)
  exact Format.addMagnitudes_atMost (by decide) hbase
    (Format.mul_atMost (by decide) hthousandths hhalf (by decide)) (by decide)

/-- As far as delays have three bits of room, their jitter leaves them lengths of time. -/
theorem stretched_below (delay : d ≤ .ofSeconds (2 ^ 61)) (k : Draw) :
    Below (2 ^ 64) (stretched d k) := by
  have hp : AtMost (2 ^ (((61 : Nat) : Int) + 1 + 1)) (stretched d k) :=
    Format.mul_atMost (by decide) (Duration.toSeconds_atMost delay (by decide)) k.factor_atMost (by decide)
  refine hp.below ?_
  norm_num

end Retry
end BrokeredCalls
