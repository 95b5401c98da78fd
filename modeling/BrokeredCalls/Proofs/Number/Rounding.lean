import Mathlib.Algebra.Order.Field.Power
import Mathlib.Data.Rat.Cast.Order
import Mathlib.Tactic.Linarith
import Mathlib.Tactic.Positivity
import Mathlib.Tactic.Ring
import BrokeredCalls.Number.Binary

/-!
How far rounding can go. A quotient that is at most a power of two is rounded to at most that power, so
sums and products stay below the powers that bound their exact values.
-/

namespace BrokeredCalls

theorem Nat.divNearest_le {n d k : Nat} (h : n ≤ k * d) : Nat.divNearest n d ≤ k := by
  have hdiv := Nat.div_add_mod n d
  unfold Nat.divNearest
  rcases Nat.eq_zero_or_pos d with rfl | pos
  · have hn : n = 0 := by omega
    subst hn
    exact Nat.zero_le k
  have hle : n / d ≤ k := Nat.div_le_of_le_mul (by rwa [Nat.mul_comm])
  rcases Nat.lt_or_eq_of_le hle with hlt | heq
  · dsimp only
    split
    · omega
    · split
      · omega
      · split <;> omega
  -- The quotient is `k` already, so nothing is left to round up.
  · have hrest : n % d = 0 := by
      rw [heq, Nat.mul_comm] at hdiv
      omega
    have hlt : 2 * (n % d) < d := by omega
    simp only [hlt, if_true, heq, le_refl]

theorem Nat.divNearest_eq_zero {n d : Nat} (h : 2 * n ≤ d) : Nat.divNearest n d = 0 := by
  rcases Nat.eq_zero_or_pos d with rfl | pos
  · have hn : n = 0 := by omega
    subst hn
    rfl
  have hlt : n < d := by omega
  unfold Nat.divNearest
  rw [Nat.div_eq_of_lt hlt, Nat.mod_eq_of_lt hlt]
  dsimp only
  split
  · rfl
  · rw [if_neg (by omega), if_pos rfl]

namespace Binary

def AtMost (bound : ℚ) (v : Binary) : Prop :=
  ∃ s m e, v = .finite s m e ∧ (m : ℚ) * 2 ^ e ≤ bound

theorem scale_pos {num den : Nat} (pos : 0 < den) (e : Int) : 0 < (scale num den e).2 := by
  cases e with
  | ofNat e => exact Nat.mul_pos pos (Nat.pow_pos Nat.two_pos)
  | negSucc e => exact pos

theorem scale_eq (num den : Nat) (e : Int) :
    ((scale num den e).1 : ℚ) / (scale num den e).2 = num / den / 2 ^ e := by
  cases e with
  | ofNat e =>
    show (num : ℚ) / ((den * 2 ^ e : Nat) : ℚ) = num / den / 2 ^ (e : Int)
    rw [zpow_natCast, Nat.cast_mul, Nat.cast_pow, Nat.cast_ofNat, div_div]
  | negSucc e =>
    show ((num * 2 ^ (e + 1) : Nat) : ℚ) / den = num / den / 2 ^ (Int.negSucc e)
    rw [zpow_negSucc, Nat.cast_mul, Nat.cast_pow, Nat.cast_ofNat, div_inv_eq_mul, div_mul_eq_mul_div]

theorem divNearest_scale_le {num den : Nat} {k e : Int} (pos : 0 < den)
    (h : (num : ℚ) / den ≤ 2 ^ k) :
    (Nat.divNearest (scale num den e).1 (scale num den e).2 : ℚ) * 2 ^ e ≤ 2 ^ k := by
  have hpos : (0 : ℚ) < (scale num den e).2 := Nat.cast_pos.mpr (scale_pos pos e)
  have hquot : ((scale num den e).1 : ℚ) / (scale num den e).2 ≤ 2 ^ (k - e) := by
    rw [scale_eq, zpow_sub₀ two_ne_zero]
    gcongr
  rw [div_le_iff₀ hpos] at hquot
  rcases le_or_gt e k with hle | hlt
  · obtain ⟨n, hn⟩ := Int.eq_ofNat_of_zero_le (sub_nonneg.mpr hle)
    rw [hn, zpow_natCast] at hquot
    have hnear : Nat.divNearest (scale num den e).1 (scale num den e).2 ≤ 2 ^ n :=
      Nat.divNearest_le (by exact_mod_cast hquot)
    calc (Nat.divNearest (scale num den e).1 (scale num den e).2 : ℚ) * 2 ^ e
        ≤ 2 ^ n * 2 ^ e := by gcongr; exact_mod_cast hnear
      _ = 2 ^ (k - e) * 2 ^ e := by rw [hn, zpow_natCast]
      _ = 2 ^ k := by rw [← zpow_add₀ two_ne_zero, sub_add_cancel]
  -- The multiples lie so far apart that zero is the nearest.
  · have hhalf : (2 : ℚ) ^ (k - e) ≤ 2 ^ (-1 : Int) := zpow_le_zpow_right₀ one_le_two (by omega)
    have hsmall : 2 * (scale num den e).1 ≤ (scale num den e).2 := by
      have : 2 * ((scale num den e).1 : ℚ) ≤ (scale num den e).2 := by
        rw [zpow_neg_one] at hhalf
        nlinarith
      exact_mod_cast this
    rw [Nat.divNearest_eq_zero hsmall, Nat.cast_zero, zero_mul]
    positivity

namespace Format

variable {f : Format}

/-- A mantissa of one bit too many, written with the next exponent. -/
def carried (f : Format) (m : Nat) (e : Int) : Nat × Int :=
  if m = 2 ^ f.precision then (2 ^ (f.precision - 1), e + 1) else (m, e)

theorem carried_eq (precise : 0 < f.precision) (m : Nat) (e : Int) :
    ((f.carried m e).1 : ℚ) * 2 ^ (f.carried m e).2 = m * 2 ^ e := by
  unfold carried
  split
  · next hm =>
    obtain ⟨p, hp⟩ := Nat.exists_eq_succ_of_ne_zero precise.ne'
    rw [hm, hp, Nat.succ_sub_one, zpow_add_one₀ two_ne_zero, Nat.cast_pow, Nat.cast_pow,
      Nat.cast_ofNat, pow_succ]
    ring
  · rfl

theorem round_eq {num den : Nat} (s : Bool) (filled : num ≠ 0) :
    f.round s num den =
      let e := f.exponentFor num den
      let c := f.carried (Nat.divNearest (scale num den e).1 (scale num den e).2) e
      if c.1 ≥ 2 ^ (f.precision - 1) ∧ c.2 + f.precision > f.limit then .infinite s
      else .finite s c.1 c.2 := by
  unfold round
  rw [if_neg filled]
  rfl

theorem round_atMost {num den : Nat} {k : Int} (s : Bool) (precise : 0 < f.precision)
    (pos : 0 < den) (h : (num : ℚ) / den ≤ 2 ^ k) (room : k < f.limit) :
    AtMost (2 ^ k) (f.round s num den) := by
  by_cases filled : num = 0
  · refine ⟨s, 0, f.minExponent, if_pos filled, ?_⟩
    rw [Nat.cast_zero, zero_mul]
    positivity
  have hnear := divNearest_scale_le (e := f.exponentFor num den) pos h
  rw [← carried_eq precise] at hnear
  rw [round_eq s filled]
  dsimp only
  generalize f.carried _ _ = c at hnear
  split
  · next hlarge =>
    have hpow : (2 : ℚ) ^ f.limit ≤ 2 ^ k := by
      calc (2 : ℚ) ^ f.limit
          ≤ 2 ^ (((f.precision - 1 : Nat) : Int) + c.2) :=
            zpow_le_zpow_right₀ one_le_two (by omega)
        _ = ((2 ^ (f.precision - 1) : Nat) : ℚ) * 2 ^ c.2 := by
            rw [zpow_add₀ two_ne_zero, zpow_natCast, Nat.cast_pow, Nat.cast_ofNat]
        _ ≤ c.1 * 2 ^ c.2 := by gcongr; exact_mod_cast hlarge.1
        _ ≤ 2 ^ k := hnear
    have := (zpow_le_zpow_iff_right₀ one_lt_two).mp hpow
    omega
  · exact ⟨s, c.1, c.2, rfl, hnear⟩

theorem round_scale_atMost {n : Nat} {e k : Int} (s : Bool) (precise : 0 < f.precision)
    (h : (n : ℚ) * 2 ^ e ≤ 2 ^ k) (room : k < f.limit) :
    AtMost (2 ^ k) (f.round s (scale n 1 (-e)).1 (scale n 1 (-e)).2) := by
  refine round_atMost s precise (scale_pos Nat.one_pos _) ?_ room
  rwa [scale_eq, Nat.cast_one, div_one, zpow_neg, div_inv_eq_mul]

theorem convert_atMost {v : Binary} {a : Int} (precise : 0 < f.precision) (hv : AtMost (2 ^ a) v)
    (room : a < f.limit) : AtMost (2 ^ a) (f.convert v) := by
  obtain ⟨s, m, e, rfl, hm⟩ := hv
  exact round_scale_atMost s precise hm room

theorem mul_atMost {v w : Binary} {a b : Int} (precise : 0 < f.precision) (hv : AtMost (2 ^ a) v)
    (hw : AtMost (2 ^ b) w) (room : a + b < f.limit) : AtMost (2 ^ (a + b)) (f.mul v w) := by
  obtain ⟨s, m, e, rfl, hm⟩ := hv
  obtain ⟨t, n, k, rfl, hn⟩ := hw
  refine round_scale_atMost (s != t) precise ?_ room
  calc ((m * n : Nat) : ℚ) * 2 ^ (e + k) = (m * 2 ^ e) * (n * 2 ^ k) := by
        rw [zpow_add₀ two_ne_zero, Nat.cast_mul]
        ring
    _ ≤ 2 ^ a * 2 ^ b := by gcongr
    _ = 2 ^ (a + b) := (zpow_add₀ two_ne_zero a b).symm

theorem addMagnitudes_atMost {v w : Binary} {a : Int} (precise : 0 < f.precision)
    (hv : AtMost (2 ^ a) v) (hw : AtMost (2 ^ a) w) (room : a + 1 < f.limit) :
    AtMost (2 ^ (a + 1)) (f.addMagnitudes v w) := by
  obtain ⟨s, m, e, rfl, hm⟩ := hv
  obtain ⟨t, n, k, rfl, hn⟩ := hw
  refine round_scale_atMost false precise ?_ room
  have shift {i : Int} (le : min e k ≤ i) :
      (2 : ℚ) ^ (i - min e k).toNat * 2 ^ min e k = 2 ^ i := by
    rw [← zpow_natCast, Int.toNat_of_nonneg (sub_nonneg.mpr le), ← zpow_add₀ two_ne_zero,
      sub_add_cancel]
  calc ((m * 2 ^ (e - min e k).toNat + n * 2 ^ (k - min e k).toNat : Nat) : ℚ) * 2 ^ min e k
      = m * (2 ^ (e - min e k).toNat * 2 ^ min e k)
        + n * (2 ^ (k - min e k).toNat * 2 ^ min e k) := by
        push_cast
        ring
    _ = m * 2 ^ e + n * 2 ^ k := by rw [shift (min_le_left e k), shift (min_le_right e k)]
    _ ≤ 2 ^ a + 2 ^ a := add_le_add hm hn
    _ = 2 ^ (a + 1) := by rw [zpow_add_one₀ two_ne_zero, mul_two]

end Format
end Binary
end BrokeredCalls
