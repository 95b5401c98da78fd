import BrokeredCalls.Hub.Queue
import BrokeredCalls.Key
import BrokeredCalls.Proofs.Text.Decimal

/-!
Broker keys of different purposes never meet: what follows the last colon of a key tells the hash,
the reply list of an entry and the reply list of a fire time apart, and what stands before it names
the service.
-/

namespace BrokeredCalls

theorem append_cons_inj_of_not_mem {α : Type} {c : α} {a a' b b' : List α}
    (hb : c ∉ b) (hb' : c ∉ b') (h : a ++ c :: b = a' ++ c :: b') : a = a' ∧ b = b' := by
  rcases List.append_eq_append_iff.mp h with ⟨m, ha, hm⟩ | ⟨m, ha, hm⟩
  · cases m with
    | nil => simp_all
    | cons x m =>
      obtain ⟨rfl, rfl⟩ : c = x ∧ b = m ++ c :: b' := by simpa using hm
      exact absurd (by simp) hb
  · cases m with
    | nil => simp_all
    | cons x m =>
      obtain ⟨rfl, rfl⟩ : c = x ∧ b' = m ++ c :: b := by simpa using hm
      exact absurd (by simp) hb'

namespace Decimal

structure Digits (cs : List Char) : Prop where
  nonempty : cs ≠ []
  digits : ∀ c ∈ cs, c.isDigit = true

theorem digits_repr (n : Nat) : Digits n.repr.toList := by
  constructor
  · intro h
    exact Nat.repr_ne_empty (String.toList_eq_nil_iff.mp h)
  · intro c hc
    exact isDigit_of_mem_repr hc

theorem Digits.not_mem {cs : List Char} (h : Digits cs) {c : Char} (hc : c.isDigit = false) :
    c ∉ cs := by
  intro hm
  have hd := h.digits c hm
  rw [hc] at hd
  cases hd

theorem toList_ofInt64 (t : Int64) :
    Digits (ofInt64 t).toList ∨ ∃ cs, (ofInt64 t).toList = '-' :: cs ∧ Digits cs := by
  unfold ofInt64
  rw [Int.toString_eq_repr]
  cases t.toInt with
  | ofNat n => exact .inl (digits_repr n)
  | negSucc n =>
    refine .inr ⟨(n + 1).repr.toList, ?_, digits_repr _⟩
    show ("-" ++ (n + 1).repr).toList = _
    rw [String.toList_append]
    rfl

theorem not_mem_ofInt64 {c : Char} (hc : c.isDigit = false) (hdash : c ≠ '-') (t : Int64) :
    c ∉ (ofInt64 t).toList := by
  rcases toList_ofInt64 t with h | ⟨cs, hl, h⟩
  · exact h.not_mem hc
  · rw [hl]
    simp [hdash, h.not_mem hc]

end Decimal

namespace EntryId

/-- Entry ids as text: decimal digits on both sides of a dash, leading zeros and all. -/
def Spelled (s : String) : Prop :=
  ∃ millis seq, s.toList = millis ++ '-' :: seq ∧ Decimal.Digits millis ∧ Decimal.Digits seq

theorem toList_text (id : EntryId) :
    id.text.toList = id.millis.repr.toList ++ '-' :: id.seq.repr.toList := by
  simp [text, String.toList_append]

theorem spelled_text (id : EntryId) : Spelled id.text :=
  ⟨_, _, id.toList_text, Decimal.digits_repr _, Decimal.digits_repr _⟩

theorem text_injective {a b : EntryId} (h : a.text = b.text) : a = b := by
  have hl := congrArg String.toList h
  rw [toList_text, toList_text] at hl
  obtain ⟨hm, hs⟩ := append_cons_inj_of_not_mem
    (Decimal.not_mem_repr (by decide) _) (Decimal.not_mem_repr (by decide) _) hl
  have h1 := Decimal.repr_injective hm
  have h2 := Decimal.repr_injective hs
  cases a; cases b; simp_all

namespace Spelled

variable {s : String}

theorem not_mem (h : Spelled s) {c : Char} (hc : c.isDigit = false) (hdash : c ≠ '-') :
    c ∉ s.toList := by
  obtain ⟨millis, seq, hl, hm, hs⟩ := h
  rw [hl]
  simp [hm.not_mem hc, hs.not_mem hc, hdash]

/-- An entry id has a dash behind a digit, a fire time at most one in front. -/
theorem ne_ofInt64 (h : Spelled s) (t : Int64) : s ≠ Decimal.ofInt64 t := by
  rintro rfl
  obtain ⟨millis, seq, hl, hm, hs⟩ := h
  rcases Decimal.toList_ofInt64 t with ht | ⟨cs, ht, hd⟩
  · apply ht.not_mem (c := '-') (by decide)
    simp [hl]
  · have hsame : [] ++ '-' :: cs = millis ++ '-' :: seq := ht.symm.trans hl
    have hfront := (append_cons_inj_of_not_mem (hd.not_mem (by decide)) (hs.not_mem (by decide))
      hsame).1
    exact hm.nonempty hfront.symm

end Spelled
end EntryId

namespace Key

theorem toList_delay (s : String) : (delay s).toList = s.toList ++ ':' :: "delay".toList := by
  rw [delay, String.toList_append]
  rfl

theorem toList_reply (s i : String) :
    (reply s i).toList = (s ++ ":reply").toList ++ ':' :: i.toList := by
  simp [reply, String.toList_append]

theorem toList_deferredReply (s : String) (t : FireTime) :
    (deferredReply s t).toList = (s ++ ":reply:at").toList ++ ':' :: (Decimal.ofInt64 t).toList := by
  simp [deferredReply, String.toList_append]

theorem delay_injective {s s' : String} (h : delay s = delay s') : s = s' := by
  have hl := congrArg String.toList h
  rw [toList_delay, toList_delay] at hl
  exact String.toList_inj.mp (List.append_cancel_right hl)

theorem reply_injective_of_spelled {s s' i i' : String} (hi : EntryId.Spelled i)
    (hi' : EntryId.Spelled i') (h : reply s i = reply s' i') : s = s' ∧ i = i' := by
  have hl := congrArg String.toList h
  rw [toList_reply, toList_reply] at hl
  obtain ⟨hs, hid⟩ := append_cons_inj_of_not_mem
    (hi.not_mem (by decide) (by decide)) (hi'.not_mem (by decide) (by decide)) hl
  rw [String.toList_append, String.toList_append] at hs
  exact ⟨String.toList_inj.mp (List.append_cancel_right hs), String.toList_inj.mp hid⟩

theorem reply_injective {s s' : String} {i i' : EntryId}
    (h : reply s i.text = reply s' i'.text) : s = s' ∧ i = i' := by
  obtain ⟨hs, hi⟩ := reply_injective_of_spelled i.spelled_text i'.spelled_text h
  exact ⟨hs, EntryId.text_injective hi⟩

theorem deferredReply_injective {s s' : String} {t t' : FireTime}
    (h : deferredReply s t = deferredReply s' t') : s = s' ∧ t = t' := by
  have hl := congrArg String.toList h
  rw [toList_deferredReply, toList_deferredReply] at hl
  obtain ⟨hs, ht⟩ := append_cons_inj_of_not_mem (Decimal.not_mem_ofInt64 (by decide) (by decide) t)
    (Decimal.not_mem_ofInt64 (by decide) (by decide) t') hl
  rw [String.toList_append, String.toList_append] at hs
  exact ⟨String.toList_inj.mp (List.append_cancel_right hs),
    Decimal.ofInt64_injective (String.toList_inj.mp ht)⟩

theorem reply_ne_deferredReply_of_spelled {i : String} (hi : EntryId.Spelled i) (s s' : String)
    (t : FireTime) : reply s i ≠ deferredReply s' t := by
  intro h
  have hl := congrArg String.toList h
  rw [toList_reply, toList_deferredReply] at hl
  have hid := (append_cons_inj_of_not_mem (hi.not_mem (by decide) (by decide))
    (Decimal.not_mem_ofInt64 (by decide) (by decide) t) hl).2
  exact hi.ne_ofInt64 t (String.toList_inj.mp hid)

theorem reply_ne_deferredReply (s s' : String) (i : EntryId) (t : FireTime) :
    reply s i.text ≠ deferredReply s' t :=
  reply_ne_deferredReply_of_spelled i.spelled_text s s' t

theorem delay_ne_reply {i : String} (hi : EntryId.Spelled i) (s s' : String) :
    delay s ≠ reply s' i := by
  intro h
  have hl := congrArg String.toList h
  rw [toList_delay, toList_reply] at hl
  have hid := (append_cons_inj_of_not_mem (by decide) (hi.not_mem (by decide) (by decide)) hl).2
  apply hi.not_mem (c := 'd') (by decide) (by decide)
  simp [← hid]

theorem delay_ne_deferredReply (s s' : String) (t : FireTime) : delay s ≠ deferredReply s' t := by
  intro h
  have hl := congrArg String.toList h
  rw [toList_delay, toList_deferredReply] at hl
  have ht := (append_cons_inj_of_not_mem (by decide)
    (Decimal.not_mem_ofInt64 (by decide) (by decide) t) hl).2
  apply Decimal.not_mem_ofInt64 (c := 'd') (by decide) (by decide) t
  simp [← ht]

end Key

inductive Kept where
  | delayed (service : String)
  | reply (service : String) (entry : { id : String // EntryId.Spelled id })
  | deferredReply (service : String) (t : FireTime)

namespace Kept

def key : Kept → String
  | delayed s => Key.delay s
  | reply s id => Key.reply s id
  | deferredReply s t => Key.deferredReply s t

/-- Whatever the services are called, no two things are kept under one key. -/
theorem key_injective : Function.Injective key := by
  intro a b h
  cases a with
  | delayed s =>
    cases b with
    | delayed s' => rw [Key.delay_injective h]
    | reply s' id => exact absurd h (Key.delay_ne_reply id.property s s')
    | deferredReply s' t => exact absurd h (Key.delay_ne_deferredReply s s' t)
  | reply s id =>
    cases b with
    | delayed s' => exact absurd h.symm (Key.delay_ne_reply id.property s' s)
    | reply s' id' =>
      obtain ⟨rfl, hid⟩ := Key.reply_injective_of_spelled id.property id'.property h
      rw [Subtype.ext hid]
    | deferredReply s' t =>
      exact absurd h (Key.reply_ne_deferredReply_of_spelled id.property s s' t)
  | deferredReply s t =>
    cases b with
    | delayed s' => exact absurd h.symm (Key.delay_ne_deferredReply s' s t)
    | reply s' id => exact absurd h.symm (Key.reply_ne_deferredReply_of_spelled id.property s' s t)
    | deferredReply s' t' =>
      obtain ⟨rfl, rfl⟩ := Key.deferredReply_injective h
      rfl

-- Under a name that is no entry id the two kinds of replies meet.
example : Key.reply "s" "at:5" = Key.deferredReply "s" 5 := by decide

end Kept
end BrokeredCalls
