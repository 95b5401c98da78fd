import BrokeredCalls.Number.Decimal

/-!
Decimal texts determine their numbers, and the text of a fire time reads back as that time.
-/

namespace BrokeredCalls

namespace Decimal

theorem repr_injective {m n : Nat} (h : m.repr.toList = n.repr.toList) : m = n := by
  rw [Nat.toList_repr, Nat.toList_repr] at h
  have hd := congrArg (Nat.ofDigitChars 10 · 0) h
  simpa using hd

theorem isDigit_of_mem_repr {c : Char} {n : Nat} (h : c ∈ n.repr.toList) : c.isDigit = true := by
  rw [Nat.toList_repr] at h
  exact Nat.isDigit_of_mem_toDigits (by decide) (by decide) h

theorem not_mem_repr {c : Char} (hc : c.isDigit = false) (n : Nat) : c ∉ n.repr.toList := by
  intro h
  have hd := isDigit_of_mem_repr h
  rw [hc] at hd
  cases hd

theorem digit?_of_isDigit {c : Char} (h : c.isDigit = true) : digit? c = some (c.toNat - 48) := by
  obtain ⟨h0, h9⟩ := Char.isDigit_iff_toNat.mp h
  exact if_pos ⟨Char.le_def.mpr h0, Char.le_def.mpr h9⟩

theorem readDigits_eq {cs : List Char} (h : ∀ c ∈ cs, c.isDigit = true) (n : Nat) :
    readDigits n cs = some (Nat.ofDigitChars 10 cs n) := by
  induction cs generalizing n with
  | nil => simp [readDigits]
  | cons c cs ih =>
    have hc := digit?_of_isDigit (h c (by simp))
    have hcs : ∀ x ∈ cs, x.isDigit = true := fun x hx => h x (by simp [hx])
    simp only [readDigits, hc, Option.bind_eq_bind, Option.bind_some]
    rw [ih hcs, Nat.ofDigitChars_cons, Nat.mul_comm]
    rfl

theorem nat?_repr (n : Nat) : nat? n.repr.toList = some n := by
  have hdigits : ∀ c ∈ n.repr.toList, c.isDigit = true := fun _ hc => isDigit_of_mem_repr hc
  have hr := readDigits_eq hdigits 0
  cases hl : n.repr.toList with
  | nil => exact absurd (String.toList_eq_nil_iff.mp hl) Nat.repr_ne_empty
  | cons c cs =>
    rw [hl] at hr
    rw [nat?, hr, ← hl, Nat.toList_repr, Nat.ofDigitChars_ten_toDigits]
    exact fun h => by cases h

theorem signed?_repr (z : Int) : signed? z.repr.toList = some z := by
  cases z with
  | ofNat n =>
    show signed? n.repr.toList = some (Int.ofNat n)
    have hn := nat?_repr n
    cases hl : n.repr.toList with
    | nil => exact absurd (String.toList_eq_nil_iff.mp hl) Nat.repr_ne_empty
    | cons c cs =>
      have hc : c.isDigit = true := isDigit_of_mem_repr (n := n) (by simp [hl])
      rw [hl] at hn
      unfold signed?
      split
      · rename_i he; cases he; cases hc
      · rename_i he; cases he; cases hc
      · simp [hn]
  | negSucc n =>
    have hl : (Int.negSucc n).repr.toList = '-' :: (n + 1).repr.toList := by
      show ("-" ++ (n + 1).repr).toList = _
      rw [String.toList_append]
      rfl
    rw [hl, signed?, nat?_repr]
    rfl

theorem int64?_ofInt64 (t : Int64) : int64? (ofInt64 t) = some t := by
  unfold int64? ofInt64
  rw [Int.toString_eq_repr, signed?_repr, Option.bind_eq_bind, Option.bind_some,
    if_pos ⟨t.minValue_le_toInt, t.toInt_le⟩, Int64.ofInt_toInt]

theorem ofInt64_injective {t u : Int64} (h : ofInt64 t = ofInt64 u) : t = u := by
  have ht := int64?_ofInt64 t
  rw [h, int64?_ofInt64] at ht
  exact (Option.some.inj ht).symm

end Decimal
end BrokeredCalls
