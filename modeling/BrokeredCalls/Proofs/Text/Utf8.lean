import Mathlib.Algebra.Group.Nat.Defs
import BrokeredCalls.Reply

/-!
The lenient reading of UTF-8 gives back every text that was written, so a reply is read as it was
framed.
-/

namespace BrokeredCalls

namespace Utf8

theorem toNat_ofNat {n : Nat} (h : n < 256) : (UInt8.ofNat n).toNat = n := by
  rw [UInt8.toNat_ofNat']
  omega

theorem le_ofNat {k : UInt8} {n : Nat} (h : n < 256) : k ≤ UInt8.ofNat n ↔ k.toNat ≤ n := by
  rw [UInt8.le_iff_toNat_le, toNat_ofNat h]

theorem ofNat_le {k : UInt8} {n : Nat} (h : n < 256) : UInt8.ofNat n ≤ k ↔ n ≤ k.toNat := by
  rw [UInt8.le_iff_toNat_le, toNat_ofNat h]

theorem ofNat_lt {k : UInt8} {n : Nat} (h : n < 256) : UInt8.ofNat n < k ↔ n < k.toNat := by
  rw [UInt8.lt_iff_toNat_lt, toNat_ofNat h]

theorem ofNat_eq {k : UInt8} {n : Nat} (h : n < 256) : UInt8.ofNat n = k ↔ n = k.toNat := by
  rw [← UInt8.toNat_inj, toNat_ofNat h]

theorem feed_inside {bits n : Nat} {low high : UInt8} {more : Nat} (hn : n < 64)
    (hlow : low.toNat ≤ n + 0x80) (hhigh : n + 0x80 ≤ high.toNat) :
    (Reader.inside bits low high more).feed (UInt8.ofNat (n + 0x80)) =
      match more with
      | 0 => ([Char.ofNat (bits * 64 + n)], .between)
      | more + 1 => ([], .inside (bits * 64 + n) 0x80 0xBF more) := by
  have h256 : n + 0x80 < 256 := by omega
  have hl := (le_ofNat h256).mpr hlow
  have hh := (ofNat_le h256).mpr hhigh
  have hb : (UInt8.ofNat (n + 0x80)).toNat - 0x80 = n := by rw [toNat_ofNat h256, Nat.add_sub_cancel]
  generalize UInt8.ofNat (n + 0x80) = b at *
  cases more with
  | zero => simp [Reader.feed, hl, hh, hb]
  | succ more => simp [Reader.feed, hl, hh, hb]

theorem feed_ascii {n : Nat} (h : n < 0x80) :
    Reader.between.feed (UInt8.ofNat n) = ([Char.ofNat n], .between) := by
  have h256 : n < 256 := by omega
  rw [Reader.feed, start, if_pos ((ofNat_lt h256).mpr (by simpa using h)), toNat_ofNat h256]

theorem feed_of_ofLead {b : UInt8} {r : Reader} (hhigh : ¬ b < 0x80) (h : Reader.ofLead b = some r) :
    Reader.between.feed b = ([], r) := by
  rw [Reader.feed, start, if_neg hhigh, h]

theorem feed_lead {n : Nat} {r : Reader} (hlo : 0x80 ≤ n) (hhi : n < 256)
    (h : Reader.ofLead (UInt8.ofNat n) = some r) :
    Reader.between.feed (UInt8.ofNat n) = ([], r) := by
  refine feed_of_ofLead (fun hn => ?_) h
  exact absurd ((ofNat_lt hhi).mp hn) (by simpa using hlo)

theorem ofLead_two {n : Nat} (hlo : 2 ≤ n) (hhi : n < 0x20) :
    Reader.ofLead (UInt8.ofNat (n + 0xC0)) = some (.inside n 0x80 0xBF 0) := by
  have h256 : n + 0xC0 < 256 := by omega
  have hc : 0xC2 ≤ UInt8.ofNat (n + 0xC0) ∧ UInt8.ofNat (n + 0xC0) ≤ 0xDF :=
    ⟨(le_ofNat h256).mpr (by simpa using hlo), (ofNat_le h256).mpr (by simp; omega)⟩
  rw [Reader.ofLead, if_pos hc, toNat_ofNat h256, Nat.add_sub_cancel]

theorem ofLead_three {n : Nat} (hn : n < 0x10) :
    Reader.ofLead (UInt8.ofNat (n + 0xE0)) = some (.inside n (if n = 0 then 0xA0 else 0x80)
      (if n = 13 then 0x9F else 0xBF) 1) := by
  have h256 : n + 0xE0 < 256 := by omega
  rw [Reader.ofLead, if_neg (fun h => absurd ((ofNat_le h256).mp h.2) (by simp))]
  by_cases h0 : n = 0
  · simp [h0]
  · rw [if_neg (fun h => h0 (by simpa using (ofNat_eq h256).mp h))]
    by_cases h13 : n = 13
    · simp [h13]
    · rw [if_neg (fun h => h13 (by simpa using (ofNat_eq h256).mp h)),
        if_pos ⟨(le_ofNat h256).mpr (by simp; omega), (ofNat_le h256).mpr (by simp; omega)⟩,
        toNat_ofNat h256, Nat.add_sub_cancel, if_neg h0, if_neg h13]

theorem ofLead_four {n : Nat} (hn : n < 5) :
    Reader.ofLead (UInt8.ofNat (n + 0xF0)) = some (.inside n (if n = 0 then 0x90 else 0x80)
      (if n = 4 then 0x8F else 0xBF) 2) := by
  have : n = 0 ∨ n = 1 ∨ n = 2 ∨ n = 3 ∨ n = 4 := by omega
  rcases this with rfl | rfl | rfl | rfl | rfl <;> rfl

theorem run_cons {r : Reader} {b : UInt8} {bs : Bytes} {out : List Char} {r' : Reader}
    (h : r.feed b = (out, r')) : r.run (b :: bs) = out ++ r'.run bs := by
  rw [Reader.run, h]

/-- The last `k` bytes of a character of more than one byte: six bits of its number each. -/
def continuation (v : Nat) : Nat → Bytes
  | 0 => []
  | k + 1 => UInt8.ofNat (v / 64 ^ k % 64 + 0x80) :: continuation v k

inductive Shape (v : Nat) : Bytes → Prop
  | one (h : v < 0x80) : Shape v [UInt8.ofNat v]
  | two (low : 0x80 ≤ v) (high : v < 0x800) :
    Shape v (UInt8.ofNat (v / 64 + 0xC0) :: continuation v 1)
  | three (low : 0x800 ≤ v) (high : v < 0x10000) (scalar : v < 0xD800 ∨ 0xDFFF < v) :
    Shape v (UInt8.ofNat (v / 64 ^ 2 + 0xE0) :: continuation v 2)
  | four (low : 0x10000 ≤ v) (high : v < 0x110000) :
    Shape v (UInt8.ofNat (v / 64 ^ 3 + 0xF0) :: continuation v 3)

theorem shape (c : Char) : Shape c.toNat (String.utf8EncodeChar c) := by
  have hv : c.val.toNat < 0xD800 ∨ 0xDFFF < c.val.toNat ∧ c.val.toNat < 0x110000 := c.valid
  show Shape c.val.toNat _
  unfold String.utf8EncodeChar
  generalize c.val.toNat = v at hv
  by_cases h1 : v ≤ 0x7F
  · simp only [h1, if_true]
    exact .one (by omega)
  by_cases h2 : v ≤ 0x7FF
  · have hd : v / 64 % 0x20 = v / 64 := Nat.mod_eq_of_lt (by omega)
    simp only [h1, h2, if_true, if_false, hd]
    simpa [continuation] using Shape.two (v := v) (by omega) (by omega)
  by_cases h3 : v ≤ 0xFFFF
  · have hd : v / 4096 % 0x10 = v / 4096 := Nat.mod_eq_of_lt (by omega)
    simp only [h1, h2, h3, if_true, if_false, hd]
    simpa [continuation] using Shape.three (v := v) (by omega) (by omega) (by omega)
  · have hd : v / 262144 % 0x08 = v / 262144 := Nat.mod_eq_of_lt (by omega)
    simp only [h1, h2, h3, if_false, hd]
    simpa [continuation] using Shape.four (v := v) (by omega) (by omega)

theorem run_continuation {bits v : Nat} {low high : UInt8} {more : Nat}
    (hbits : v / 64 ^ (more + 1) = bits) (hlow : low.toNat ≤ v / 64 ^ more % 64 + 0x80)
    (hhigh : v / 64 ^ more % 64 + 0x80 ≤ high.toNat) (bs : Bytes) :
    (Reader.inside bits low high more).run (continuation v (more + 1) ++ bs) =
      Char.ofNat v :: Reader.between.run bs := by
  have h64 (k : Nat) : v / 64 ^ k % 64 < 64 := Nat.mod_lt _ (by decide)
  have hnext (k : Nat) : v / 64 ^ (k + 1) * 64 + v / 64 ^ k % 64 = v / 64 ^ k := by
    rw [Nat.pow_succ, ← Nat.div_div_eq_div_mul, Nat.div_add_mod']
  subst hbits
  induction more generalizing low high with
  | zero =>
    rw [continuation, List.cons_append, run_cons (feed_inside (h64 0) hlow hhigh), hnext,
      Nat.pow_zero, Nat.div_one]
    rfl
  | succ more ih =>
    rw [continuation, List.cons_append, run_cons (feed_inside (h64 _) hlow hhigh), hnext]
    have hn := h64 more
    exact ih (Nat.le_add_left _ _) (by simp; omega)

theorem run_encodeChar (c : Char) (bs : Bytes) :
    Reader.between.run (String.utf8EncodeChar c ++ bs) = c :: Reader.between.run bs := by
  have hshape := shape c
  have hc : Char.ofNat c.toNat = c := c.ofNat_toNat
  generalize c.toNat = v at hshape hc
  subst hc
  generalize String.utf8EncodeChar (Char.ofNat v) = encoded at hshape
  cases hshape with
  | one h => exact run_cons (feed_ascii h)
  | two low high =>
    rw [List.cons_append, run_cons (feed_lead (by omega) (by omega) (ofLead_two (by omega) (by omega)))]
    exact run_continuation (by simp) (by simp) (by simp; omega) bs
  | three low high scalar =>
    rw [List.cons_append, run_cons (feed_lead (by omega) (by omega) (ofLead_three (by omega)))]
    refine run_continuation rfl ?_ ?_ bs
    · split
      · simp; omega
      · simp
    · split <;> (simp; omega)
  | four low high =>
    rw [List.cons_append, run_cons (feed_lead (by omega) (by omega) (ofLead_four (by omega)))]
    refine run_continuation rfl ?_ ?_ bs
    · split
      · simp; omega
      · simp
    · split <;> (simp; omega)

theorem decodeLossy_encode (s : String) : decodeLossy (encode s) = s := by
  have h (cs : List Char) : Reader.between.run (cs.flatMap String.utf8EncodeChar) = cs := by
    induction cs with
    | nil => rfl
    | cons c cs ih => rw [List.flatMap_cons, run_encodeChar, ih]
  rw [decodeLossy, encode, h, String.ofList_toList]

end Utf8

theorem Reply.decode_encode (r : Reply) : Reply.decode r.encode = .ok r := by
  cases r with
  | ok p => rfl
  | error t =>
    show Except.ok (Reply.error (Utf8.decodeLossy (Utf8.encode t))) = _
    rw [Utf8.decodeLossy_encode]

theorem Reply.toResult_injective {r r' : Reply} (h : r.toResult = r'.toResult) : r = r' := by
  cases r <;> cases r' <;> cases h <;> rfl

end BrokeredCalls
