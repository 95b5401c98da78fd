import BrokeredCalls.Proofs.Text.Utf8

/-!
The lenient reading of bytes that are no text: what is a character stays, and each maximal ill-formed
subpart becomes one replacement character. A subpart is what a character was cut off to, or else a
single byte. Reply frames are read back as they were written, and a frame that is written otherwise
than it was read is that of an error whose text was none.
-/

namespace BrokeredCalls

namespace Utf8

/-- The beginning of a character that is not all of it. -/
def Cut (part : Bytes) : Prop :=
  part ≠ [] ∧ ∃ c, part <+: String.utf8EncodeChar c ∧ part ≠ String.utf8EncodeChar c

/-- The maximal ill-formed subpart at the front of bytes at which no character begins. -/
structure IllFormed (bs part : Bytes) : Prop where
  unreadable : ∀ c, ¬ String.utf8EncodeChar c <+: bs
  front : part <+: bs
  subpart : Cut part ∨ part.length = 1
  maximal : ∀ p, p <+: bs → Cut p ∨ p.length = 1 → p.length ≤ part.length

inductive Lenient : Bytes → List Char → Prop
  | nil : Lenient [] []
  | char (c : Char) {rest : Bytes} {out : List Char} (h : Lenient rest out) :
    Lenient (String.utf8EncodeChar c ++ rest) (c :: out)
  | replaced {part rest : Bytes} {out : List Char} (ill : IllFormed (part ++ rest) part)
    (h : Lenient rest out) : Lenient (part ++ rest) (replacement :: out)

theorem encodeChar_ne_nil (c : Char) : String.utf8EncodeChar c ≠ [] := by
  have hshape := shape c
  intro h
  rw [h] at hshape
  cases hshape

theorem eq_of_encodeChar_prefix {c d : Char}
    (h : String.utf8EncodeChar c <+: String.utf8EncodeChar d) : c = d := by
  obtain ⟨rest, hrest⟩ := h
  have hc := run_encodeChar c rest
  have hd := run_encodeChar d []
  rw [hrest, ← List.append_nil (String.utf8EncodeChar d), hd] at hc
  exact (List.cons.inj hc).1.symm

/-- What may follow the bytes of an open character: exactly what completes a character. -/
structure Open (part : Bytes) (bits : Nat) (low high : UInt8) (more : Nat) : Prop where
  begun : part ≠ []
  continues : 0x80 ≤ low.toNat ∧ low.toNat ≤ high.toNat ∧ high.toNat ≤ 0xBF
  spells : ∀ v, v / 64 ^ (more + 1) = bits → low.toNat ≤ v / 64 ^ more % 64 + 0x80 →
    v / 64 ^ more % 64 + 0x80 ≤ high.toNat →
      String.utf8EncodeChar (Char.ofNat v) = part ++ continuation v (more + 1)
  spelled : ∀ c : Char, part <+: String.utf8EncodeChar c → c.toNat / 64 ^ (more + 1) = bits ∧
    low.toNat ≤ c.toNat / 64 ^ more % 64 + 0x80 ∧ c.toNat / 64 ^ more % 64 + 0x80 ≤ high.toNat

namespace Open

variable {part bs : Bytes} {bits : Nat} {low high : UInt8} {more : Nat} {b : UInt8}

theorem encodeChar_eq (h : Open part bits low high more) {c : Char}
    (hc : part <+: String.utf8EncodeChar c) :
    String.utf8EncodeChar c = part ++ continuation c.toNat (more + 1) := by
  obtain ⟨hbits, hlow, hhigh⟩ := h.spelled c hc
  have hv := h.spells c.toNat hbits hlow hhigh
  rwa [c.ofNat_toNat] at hv

theorem next_byte (h : Open part bits low high more) {c : Char}
    (hc : part ++ [b] <+: String.utf8EncodeChar c) :
    b = UInt8.ofNat (c.toNat / 64 ^ more % 64 + 0x80) := by
  rw [h.encodeChar_eq ((List.prefix_append _ _).trans hc), continuation,
    List.prefix_append_right_inj] at hc
  exact (List.cons_prefix_cons.mp hc).1

theorem accepts (h : Open part bits low high more) {c : Char}
    (hc : part ++ [b] <+: String.utf8EncodeChar c) : low ≤ b ∧ b ≤ high := by
  obtain ⟨-, hlow, hhigh⟩ := h.spelled c ((List.prefix_append _ _).trans hc)
  have h256 : c.toNat / 64 ^ more % 64 + 0x80 < 256 := by omega
  rw [h.next_byte hc]
  exact ⟨(le_ofNat h256).mpr hlow, (ofNat_le h256).mpr hhigh⟩

theorem cut (h : Open part bits low high more) : Cut part := by
  obtain ⟨hlow, hle, hhigh⟩ := h.continues
  have hpos : 0 < 64 ^ more := Nat.pow_pos (by decide)
  have hv : (bits * 64 + (low.toNat - 0x80)) * 64 ^ more / 64 ^ more =
      bits * 64 + (low.toNat - 0x80) := Nat.mul_div_cancel _ hpos
  have hspelled := h.spells ((bits * 64 + (low.toNat - 0x80)) * 64 ^ more)
    (by rw [Nat.pow_succ, ← Nat.div_div_eq_div_mul, hv]; omega) (by rw [hv]; omega)
    (by rw [hv]; omega)
  refine ⟨h.begun, _, ⟨_, hspelled.symm⟩, ?_⟩
  rw [hspelled]
  intro heq
  have hlength := congrArg List.length heq
  simp [continuation] at hlength

theorem byte_eq (h : Open part bits low high more) (hb : low ≤ b ∧ b ≤ high) :
    ∃ n, n < 64 ∧ b = UInt8.ofNat (n + 0x80) ∧ b.toNat - 0x80 = n := by
  obtain ⟨hlow, -, hhigh⟩ := h.continues
  have h1 := UInt8.le_iff_toNat_le.mp hb.1
  have h2 := UInt8.le_iff_toNat_le.mp hb.2
  refine ⟨b.toNat - 0x80, by omega, ?_, rfl⟩
  rw [Nat.sub_add_cancel (by omega), UInt8.ofNat_toNat]

theorem push (h : Open part bits low high (more + 1)) (hb : low ≤ b ∧ b ≤ high) :
    Open (part ++ [b]) (bits * 64 + (b.toNat - 0x80)) 0x80 0xBF more := by
  obtain ⟨n, hn, hbyte, hbits⟩ := h.byte_eq hb
  have h1 := UInt8.le_iff_toNat_le.mp hb.1
  have h2 := UInt8.le_iff_toNat_le.mp hb.2
  have h256 : n + 0x80 < 256 := by omega
  rw [hbyte, toNat_ofNat h256] at h1 h2
  rw [hbits]
  constructor
  · simp
  · decide
  · intro v hv _ _
    have hhead : v / 64 ^ (more + 2) = bits := by
      rw [Nat.pow_succ, ← Nat.div_div_eq_div_mul, hv]
      omega
    have hnext : v / 64 ^ (more + 1) % 64 = n := by
      rw [hv]
      omega
    rw [h.spells v hhead (by rwa [hnext]) (by rwa [hnext]), continuation, hnext, hbyte,
      List.append_assoc, List.singleton_append]
  · intro c hc
    obtain ⟨hhead, -, -⟩ := h.spelled c ((List.prefix_append _ _).trans hc)
    have hsame := h.next_byte hc
    have h64 : c.toNat / 64 ^ (more + 1) % 64 < 64 := Nat.mod_lt _ (by decide)
    have h64' : c.toNat / 64 ^ more % 64 < 64 := Nat.mod_lt _ (by decide)
    rw [hbyte, ofNat_eq h256, toNat_ofNat (by omega)] at hsame
    rw [Nat.pow_succ, ← Nat.div_div_eq_div_mul] at hhead
    refine ⟨by omega, by simp, ?_⟩
    show _ ≤ 0xBF
    omega

theorem encodeChar_of_last (h : Open part bits low high 0) (hb : low ≤ b ∧ b ≤ high) :
    String.utf8EncodeChar (Char.ofNat (bits * 64 + (b.toNat - 0x80))) = part ++ [b] := by
  obtain ⟨n, hn, hbyte, hbits⟩ := h.byte_eq hb
  have h1 := UInt8.le_iff_toNat_le.mp hb.1
  have h2 := UInt8.le_iff_toNat_le.mp hb.2
  have h256 : n + 0x80 < 256 := by omega
  rw [hbyte, toNat_ofNat h256] at h1 h2
  have hnext : (bits * 64 + n) / 64 ^ 0 % 64 = n := by
    rw [Nat.pow_zero, Nat.div_one]
    omega
  rw [hbits, h.spells (bits * 64 + n) (by omega) (by rwa [hnext]) (by rwa [hnext]), continuation,
    hnext, hbyte]
  rfl

theorem illFormed (h : Open part bits low high more)
    (stuck : ∀ b rest, bs = b :: rest → ¬ (low ≤ b ∧ b ≤ high)) : IllFormed (part ++ bs) part := by
  have outgrown {c : Char} {p : Bytes} (hp : p <+: part ++ bs) (hc : p <+: String.utf8EncodeChar c)
      (hlonger : part.length < p.length) : False := by
    obtain ⟨x, rfl⟩ := List.prefix_of_prefix_length_le (List.prefix_append part bs) hp
      (Nat.le_of_lt hlonger)
    rw [List.prefix_append_right_inj] at hp
    cases x with
    | nil => simp at hlonger
    | cons b x =>
      obtain ⟨rest, rfl⟩ := hp
      refine stuck b (x ++ rest) rfl (h.accepts (c := c) (List.IsPrefix.trans ?_ hc))
      simp
  obtain ⟨hne, d, hd, hproper⟩ := h.cut
  constructor
  · intro c hc
    rcases Nat.lt_or_ge part.length (String.utf8EncodeChar c).length with hlt | hle
    · exact outgrown hc List.prefix_rfl hlt
    · have hpart := List.prefix_of_prefix_length_le hc (List.prefix_append part bs) hle
      obtain rfl := eq_of_encodeChar_prefix (hpart.trans hd)
      exact hproper (hd.eq_of_length_le hpart.length_le)
  · exact List.prefix_append part bs
  · exact .inl h.cut
  · intro p hp hsub
    rcases hsub with ⟨-, c, hc, -⟩ | hone
    · exact Nat.le_of_not_lt fun hlt => outgrown hp hc hlt
    · rw [hone]
      exact List.length_pos_iff.mpr hne

end Open

theorem toNat_char {v : Nat} (h : v < 0xD800 ∨ 0xDFFF < v ∧ v < 0x110000) :
    (Char.ofNat v).toNat = v := by
  have hvalid : v.isValidChar := h
  rw [Char.ofNat, dif_pos hvalid]
  rfl

theorem lead_eq {c : Char} {b : UInt8} (h : [b] <+: String.utf8EncodeChar c) :
    c.toNat < 0x80 ∧ b.toNat = c.toNat ∨
    (0x80 ≤ c.toNat ∧ c.toNat < 0x800) ∧ b.toNat = c.toNat / 64 + 0xC0 ∨
    (0x800 ≤ c.toNat ∧ c.toNat < 0x10000 ∧ (c.toNat < 0xD800 ∨ 0xDFFF < c.toNat)) ∧
      b.toNat = c.toNat / 64 ^ 2 + 0xE0 ∨
    (0x10000 ≤ c.toNat ∧ c.toNat < 0x110000) ∧ b.toNat = c.toNat / 64 ^ 3 + 0xF0 := by
  have hshape := shape c
  generalize String.utf8EncodeChar c = encoded at h hshape
  cases hshape with
  | one hv =>
    rw [(List.cons_prefix_cons.mp h).1, toNat_ofNat (by omega)]
    exact .inl ⟨hv, rfl⟩
  | two low high =>
    rw [(List.cons_prefix_cons.mp h).1, toNat_ofNat (by omega)]
    exact .inr (.inl ⟨⟨low, high⟩, rfl⟩)
  | three low high scalar =>
    rw [(List.cons_prefix_cons.mp h).1, toNat_ofNat (by omega)]
    exact .inr (.inr (.inl ⟨⟨low, high, scalar⟩, rfl⟩))
  | four low high =>
    rw [(List.cons_prefix_cons.mp h).1, toNat_ofNat (by omega)]
    exact .inr (.inr (.inr ⟨⟨low, high⟩, rfl⟩))

theorem Shape.scalar {v : Nat} {bs : Bytes} (h : Shape v bs) :
    v < 0xD800 ∨ 0xDFFF < v ∧ v < 0x110000 := by
  cases h <;> omega

theorem Shape.unique {v : Nat} {bs bs' : Bytes} (h : Shape v bs) (h' : Shape v bs') : bs = bs' := by
  cases h <;> cases h' <;> first | rfl | omega

theorem encodeChar_of_shape {v : Nat} {bs : Bytes} (h : Shape v bs) :
    String.utf8EncodeChar (Char.ofNat v) = bs := by
  have hshape := shape (Char.ofNat v)
  rw [toNat_char h.scalar] at hshape
  exact hshape.unique h

theorem open_two {n : Nat} (hlo : 2 ≤ n) (hhi : n < 0x20) :
    Open [UInt8.ofNat (n + 0xC0)] n 0x80 0xBF 0 := by
  have h256 : n + 0xC0 < 256 := by omega
  constructor
  · simp
  · decide
  · intro v hv _ _
    rw [encodeChar_of_shape (.two (by omega) (by omega)), ← hv]
    simp
  · intro c hc
    have hlead := lead_eq hc
    rw [toNat_ofNat h256] at hlead
    refine ⟨by omega, by simp, ?_⟩
    show _ ≤ 0xBF
    omega

theorem toNat_bound (n k : Nat) (x y : UInt8) :
    n = k ∧ (if n = k then x else y).toNat = x.toNat ∨
      n ≠ k ∧ (if n = k then x else y).toNat = y.toNat := by
  by_cases h : n = k <;> simp [h]

theorem open_three {n : Nat} (hn : n < 0x10) :
    Open [UInt8.ofNat (n + 0xE0)] n (if n = 0 then 0xA0 else 0x80)
      (if n = 13 then 0x9F else 0xBF) 1 := by
  have h256 : n + 0xE0 < 256 := by omega
  have hlow := toNat_bound n 0 0xA0 0x80
  have hhigh := toNat_bound n 13 0x9F 0xBF
  generalize (if n = 0 then (0xA0 : UInt8) else 0x80) = low at *
  generalize (if n = 13 then (0x9F : UInt8) else 0xBF) = high at *
  simp only [UInt8.reduceToNat] at hlow hhigh
  constructor
  · simp
  · omega
  · intro v hv h1 h2
    rw [encodeChar_of_shape (.three (by omega) (by omega) (by omega)), hv]
    rfl
  · intro c hc
    have hlead := lead_eq hc
    rw [toNat_ofNat h256] at hlead
    omega

theorem open_four {n : Nat} (hn : n < 5) :
    Open [UInt8.ofNat (n + 0xF0)] n (if n = 0 then 0x90 else 0x80)
      (if n = 4 then 0x8F else 0xBF) 2 := by
  have h256 : n + 0xF0 < 256 := by omega
  have hlow := toNat_bound n 0 0x90 0x80
  have hhigh := toNat_bound n 4 0x8F 0xBF
  generalize (if n = 0 then (0x90 : UInt8) else 0x80) = low at *
  generalize (if n = 4 then (0x8F : UInt8) else 0xBF) = high at *
  simp only [UInt8.reduceToNat] at hlow hhigh
  constructor
  · simp
  · omega
  · intro v hv h1 h2
    rw [encodeChar_of_shape (.four (by omega) (by omega)), hv]
    rfl
  · intro c hc
    have hlead := lead_eq hc
    rw [toNat_ofNat h256] at hlead
    omega

inductive Leads (b : UInt8) : Prop
  | intro {bits : Nat} {low high : UInt8} {more : Nat}
    (lead : Reader.ofLead b = some (.inside bits low high more)) (opened : Open [b] bits low high more)

theorem leads {b : UInt8} (hlo : 0xC2 ≤ b.toNat) (hhi : b.toNat ≤ 0xF4) : Leads b := by
  have hb (n : Nat) (hn : n ≤ b.toNat) : b = UInt8.ofNat (b.toNat - n + n) := by
    rw [Nat.sub_add_cancel hn, UInt8.ofNat_toNat]
  by_cases h2 : b.toNat < 0xE0
  · rw [hb 0xC0 (by omega)]
    exact ⟨ofLead_two (by omega) (by omega), open_two (by omega) (by omega)⟩
  by_cases h3 : b.toNat < 0xF0
  · rw [hb 0xE0 (by omega)]
    exact ⟨ofLead_three (by omega), open_three (by omega)⟩
  · rw [hb 0xF0 (by omega)]
    exact ⟨ofLead_four (by omega), open_four (by omega)⟩

theorem not_leads {b : UInt8} (h : b.toNat < 0xC2 ∨ 0xF4 < b.toNat) : Reader.ofLead b = none := by
  simp only [Reader.ofLead, UInt8.le_iff_toNat_le, ← UInt8.toNat_inj, UInt8.reduceToNat]
  repeat rw [if_neg (by omega)]

theorem illFormed_stray {b : UInt8} {bs : Bytes} (h80 : 0x80 ≤ b.toNat)
    (h : b.toNat < 0xC2 ∨ 0xF4 < b.toNat) : IllFormed (b :: bs) [b] := by
  have never (c : Char) : ¬ [b] <+: String.utf8EncodeChar c := by
    intro hc
    have hlead := lead_eq hc
    omega
  have nowhere {c : Char} {p : Bytes} (hp : p <+: b :: bs) (hne : p ≠ [])
      (hc : p <+: String.utf8EncodeChar c) : False := by
    cases p with
    | nil => exact hne rfl
    | cons x p =>
      obtain rfl := (List.cons_prefix_cons.mp hp).1
      exact never c (List.IsPrefix.trans (by simp) hc)
  constructor
  · intro c hc
    exact nowhere hc (encodeChar_ne_nil c) List.prefix_rfl
  · simp
  · exact .inr rfl
  · intro p hp hsub
    rcases hsub with ⟨hne, c, hc, -⟩ | hone
    · exact (nowhere hp hne hc).elim
    · exact Nat.le_of_eq hone

/-- What a reader makes of the bytes before it, `part` being those of the character it is inside of. -/
inductive Reads (r : Reader) (part bs : Bytes) : Prop
  | char (c : Char) (rest : Bytes) (bytes : part ++ bs = String.utf8EncodeChar c ++ rest)
    (run : r.run bs = c :: Reader.between.run rest)
  | replaced (ill rest : Bytes) (bytes : part ++ bs = ill ++ rest) (illFormed : IllFormed (part ++ bs) ill)
    (run : r.run bs = replacement :: Reader.between.run rest)

theorem Open.reads {part bs : Bytes} {bits : Nat} {low high : UInt8} {more : Nat}
    (h : Open part bits low high more) : Reads (.inside bits low high more) part bs := by
  induction bs generalizing part bits low high more with
  | nil => exact .replaced part [] rfl (h.illFormed nofun) rfl
  | cons b bs ih =>
    by_cases hb : low ≤ b ∧ b ≤ high
    · have happend : part ++ b :: bs = (part ++ [b]) ++ bs := by simp
      cases more with
      | zero =>
        refine .char _ bs (happend.trans (by rw [h.encodeChar_of_last hb])) ?_
        rw [Reader.run, Reader.feed, if_pos hb]
        rfl
      | succ more =>
        have hrun : (Reader.inside bits low high (more + 1)).run (b :: bs) =
            (Reader.inside (bits * 64 + (b.toNat - 0x80)) 0x80 0xBF more).run bs := by
          rw [Reader.run, Reader.feed, if_pos hb]
          rfl
        cases ih (h.push hb) with
        | char c rest bytes run => exact .char c rest (happend.trans bytes) (hrun.trans run)
        | replaced ill rest bytes illFormed run =>
          exact .replaced ill rest (happend.trans bytes) (happend ▸ illFormed) (hrun.trans run)
    · refine .replaced part (b :: bs) rfl (h.illFormed ?_) ?_
      · rintro _ _ ⟨⟩
        exact hb
      · rw [Reader.run, Reader.feed, if_neg hb]
        rfl

theorem reads (b : UInt8) (bs : Bytes) : Reads .between [] (b :: bs) := by
  by_cases h80 : b.toNat < 0x80
  · have hchar : String.utf8EncodeChar (Char.ofNat b.toNat) = [b] := by
      rw [encodeChar_of_shape (.one h80), UInt8.ofNat_toNat]
    refine .char (Char.ofNat b.toNat) bs (by rw [hchar]; rfl) ?_
    rw [← run_encodeChar, hchar]
    rfl
  have hhigh : ¬ b < 0x80 := fun hlt => h80 (UInt8.lt_iff_toNat_lt.mp hlt)
  by_cases hlead : 0xC2 ≤ b.toNat ∧ b.toNat ≤ 0xF4
  · obtain ⟨lead, opened⟩ := leads hlead.1 hlead.2
    have hstart := feed_of_ofLead hhigh lead
    have reading : Reads _ [b] bs := opened.reads
    cases reading with
    | char c rest bytes run => exact .char c rest bytes ((run_cons hstart).trans run)
    | replaced ill rest bytes illFormed run =>
      exact .replaced ill rest bytes illFormed ((run_cons hstart).trans run)
  · have hstray : b.toNat < 0xC2 ∨ 0xF4 < b.toNat := by omega
    have hstart : Reader.between.feed b = ([replacement], .between) := by
      rw [Reader.feed, start, if_neg hhigh, not_leads hstray]
    exact .replaced [b] bs rfl (illFormed_stray (by omega) hstray) (run_cons hstart)

theorem IllFormed.ne_nil {bs part : Bytes} (h : IllFormed bs part) : part ≠ [] := by
  rcases h.subpart with ⟨hne, -⟩ | hone
  · exact hne
  · rintro rfl
    cases hone

theorem IllFormed.unique {bs part part' : Bytes} (h : IllFormed bs part) (h' : IllFormed bs part') :
    part = part' := by
  have hle := h'.maximal part h.front h.subpart
  have hge := h.maximal part' h'.front h'.subpart
  exact (List.prefix_of_prefix_length_le h.front h'.front hle).eq_of_length (Nat.le_antisymm hle hge)

theorem length_rest {bs part rest : Bytes} (hne : part ≠ []) (h : bs = part ++ rest) :
    rest.length < bs.length := by
  have hpos := List.length_pos_iff.mpr hne
  rw [h, List.length_append]
  omega

theorem lenient_run (bs : Bytes) : Lenient bs (Reader.between.run bs) := by
  induction hlength : bs.length using Nat.strongRecOn generalizing bs with
  | ind n ih =>
    subst hlength
    cases bs with
    | nil => exact .nil
    | cons b bs =>
      cases reads b bs with
      | char c rest bytes run =>
        have hrest := ih _ (length_rest (encodeChar_ne_nil c) bytes) rest rfl
        rw [run, show b :: bs = _ from bytes]
        exact .char c hrest
      | replaced ill rest bytes illFormed run =>
        have hrest := ih _ (length_rest illFormed.ne_nil bytes) rest rfl
        rw [run, show b :: bs = _ from bytes]
        exact .replaced (bytes ▸ illFormed) hrest

theorem Lenient.run_eq {bs : Bytes} {out : List Char} (h : Lenient bs out) :
    Reader.between.run bs = out := by
  induction h with
  | nil => rfl
  | char c h ih => rw [run_encodeChar, ih]
  | @replaced part rest out ill h ih =>
    cases hbs : part ++ rest with
    | nil => exact absurd (List.append_eq_nil_iff.mp hbs).1 ill.ne_nil
    | cons b bs =>
      rw [hbs] at ill
      cases reads b bs with
      | char c rest' bytes run => exact absurd ⟨rest', bytes.symm⟩ (ill.unreadable c)
      | replaced part' rest' bytes illFormed run =>
        obtain rfl := ill.unique illFormed
        have hsame : part ++ rest = part ++ rest' := hbs.trans bytes
        rw [run, ← List.append_cancel_left hsame, ih]

/-- The lenient reading is the one that replaces each maximal ill-formed subpart and nothing else. -/
theorem decodeLossy_eq_iff {bs : Bytes} {s : String} : decodeLossy bs = s ↔ Lenient bs s.toList := by
  unfold decodeLossy
  constructor
  · rintro rfl
    rw [String.toList_ofList]
    exact lenient_run bs
  · intro h
    rw [h.run_eq, String.ofList_toList]

theorem isValidUTF8_iff {bs : Bytes} : bs.toByteArray.IsValidUTF8 ↔ ∃ s, encode s = bs := by
  constructor
  · rintro ⟨cs, h⟩
    refine ⟨String.ofList cs, ?_⟩
    rw [encode, String.toList_ofList]
    exact List.toByteArray_inj.mp h.symm
  · rintro ⟨s, rfl⟩
    exact ⟨s.toList, rfl⟩

theorem encode_decodeLossy_iff {bs : Bytes} :
    encode (decodeLossy bs) = bs ↔ bs.toByteArray.IsValidUTF8 := by
  rw [isValidUTF8_iff]
  constructor
  · intro h
    exact ⟨_, h⟩
  · rintro ⟨s, rfl⟩
    rw [decodeLossy_encode]

end Utf8

namespace Reply

theorem decode_eq_ok_iff {f : Bytes} {r : Reply} : decode f = .ok r ↔
    (∃ body, f = okTag :: body ∧ r = .ok body) ∨
      ∃ body, f = errorTag :: body ∧ r = .error (Utf8.decodeLossy body) := by
  cases f with
  | nil => simp [decode]
  | cons tag body =>
    by_cases hok : tag = okTag
    · simp [decode, hok, eq_comm, show errorTag ≠ okTag by decide]
    · by_cases herror : tag = errorTag
      · simp [decode, herror, eq_comm, show errorTag ≠ okTag by decide]
      · simp [decode, hok, herror]

theorem readable_iff {f : Bytes} :
    (∃ r, decode f = .ok r) ↔ f.head? = some okTag ∨ f.head? = some errorTag := by
  constructor
  · rintro ⟨r, h⟩
    rcases decode_eq_ok_iff.mp h with ⟨body, rfl, -⟩ | ⟨body, rfl, -⟩
    · exact .inl rfl
    · exact .inr rfl
  · rintro (h | h)
    · obtain ⟨body, rfl⟩ := List.head?_eq_some_iff.mp h
      exact ⟨_, decode_eq_ok_iff.mpr (.inl ⟨body, rfl, rfl⟩)⟩
    · obtain ⟨body, rfl⟩ := List.head?_eq_some_iff.mp h
      exact ⟨_, decode_eq_ok_iff.mpr (.inr ⟨body, rfl, rfl⟩)⟩

theorem encode_of_decode {f : Bytes} {r : Reply} (h : decode f = .ok r) :
    r.encode = f ↔ f.head? = some okTag ∨ f.tail.toByteArray.IsValidUTF8 := by
  rcases decode_eq_ok_iff.mp h with ⟨body, rfl, rfl⟩ | ⟨body, rfl, rfl⟩
  · simp [encode]
  · have hne : errorTag ≠ okTag := by decide
    simp [encode, hne, Utf8.encode_decodeLossy_iff]

theorem decode_error_iff {body : Bytes} {t : String} :
    decode (errorTag :: body) = .ok (.error t) ↔ Utf8.Lenient body t.toList := by
  rw [← Utf8.decodeLossy_eq_iff, decode_eq_ok_iff]
  have hne : errorTag ≠ okTag := by decide
  simp [hne, eq_comm]

theorem framing_faithful :
    (∀ r : Reply, decode r.encode = .ok r) ∧
    (∀ f, (∃ r, decode f = .ok r) ↔ f.head? = some okTag ∨ f.head? = some errorTag) ∧
    (∀ f r, decode f = .ok r →
      (r.encode = f ↔ f.head? = some okTag ∨ f.tail.toByteArray.IsValidUTF8)) ∧
    (∀ body t, decode (errorTag :: body) = .ok (.error t) ↔ Utf8.Lenient body t.toList) ∧
    ∀ f r, decode f = .ok r → decode r.encode = .ok r := by
  refine ⟨decode_encode, fun f => readable_iff, fun f r => encode_of_decode,
    fun body t => decode_error_iff, ?_⟩
  intro f r _
  exact decode_encode r

/-- A character cut off after two of its three bytes, before another one. -/
theorem framing_cut_off :
    decode [errorTag, 0xE2, 0x82, 0x41] = .ok (.error "\uFFFDA") ∧
    (Reply.error "\uFFFDA").encode ≠ [errorTag, 0xE2, 0x82, 0x41] ∧
    ¬ [(0xE2 : UInt8), 0x82, 0x41].toByteArray.IsValidUTF8 ∧
    Utf8.Lenient [0xE2, 0x82, 0x41] ['\uFFFD', 'A'] ∧
    decode (Reply.error "\uFFFDA").encode = .ok (.error "\uFFFDA") := by
  obtain ⟨-, -, rewritten, lenient, stable⟩ := framing_faithful
  have read : decode [errorTag, 0xE2, 0x82, 0x41] = .ok (.error "\uFFFDA") := rfl
  have changed : (Reply.error "\uFFFDA").encode ≠ [errorTag, 0xE2, 0x82, 0x41] := by decide
  refine ⟨read, changed, ?_, (lenient _ _).mp read, stable _ _ read⟩
  intro valid
  exact changed ((rewritten _ _ read).mpr (.inr valid))

end Reply
end BrokeredCalls
