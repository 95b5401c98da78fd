import BrokeredCalls.Hub.Basic

/-!
What pushing and handing out do to one queue. Entries stand in ascending order of their ids, so what a
group takes is the next segment above its cursor, and what trimming drops is the oldest segment.
-/

namespace BrokeredCalls

namespace EntryId

instance : LE EntryId := ⟨fun a b => ¬ b < a⟩

theorem le_def {a b : EntryId} :
    a ≤ b ↔ a.millis < b.millis ∨ a.millis = b.millis ∧ a.seq ≤ b.seq := by
  show ¬ (b.millis < a.millis ∨ b.millis = a.millis ∧ b.seq < a.seq) ↔ _
  omega

theorem not_lt {a b : EntryId} : ¬ a < b ↔ b ≤ a := Iff.rfl

theorem le_refl (a : EntryId) : a ≤ a := lt_irrefl a

theorem le_of_lt {a b : EntryId} (h : a < b) : a ≤ b := by
  simp only [le_def, lt_def] at *
  omega

theorem le_trans {a b c : EntryId} (h : a ≤ b) (k : b ≤ c) : a ≤ c := by
  simp only [le_def] at *
  omega

theorem lt_of_le_of_lt {a b c : EntryId} (h : a ≤ b) (k : b < c) : a < c := by
  simp only [le_def, lt_def] at *
  omega

end EntryId

namespace Hub

def Ascending (es : List Entry) : Prop := es.Pairwise fun a b => a.id < b.id

namespace Ascending

theorem sublist {es fs : List Entry} (h : Ascending fs) (hs : es.Sublist fs) : Ascending es :=
  List.Pairwise.sublist hs h

theorem nodup {es : List Entry} (h : Ascending es) : es.Nodup :=
  List.Pairwise.imp (fun hab => by rintro rfl; exact EntryId.lt_irrefl _ hab) h

theorem nodup_map {α : Type} {f : Entry → α} {es : List Entry} (h : Ascending es)
    (hf : ∀ a b, f a = f b → a.id = b.id) : (es.map f).Nodup := by
  refine List.Pairwise.map f (fun a b hlt hsame => ?_) h
  rw [hf a b hsame] at hlt
  exact EntryId.lt_irrefl _ hlt

theorem eq_of_id {es : List Entry} (h : Ascending es) {a b : Entry} (ha : a ∈ es) (hb : b ∈ es)
    (hid : a.id = b.id) : a = b := by
  induction es with
  | nil => cases ha
  | cons e es ih =>
    obtain ⟨hlt, hes⟩ := List.pairwise_cons.mp h
    rcases List.mem_cons.mp ha with hae | hat
    · rcases List.mem_cons.mp hb with hbe | hbt
      · exact hae.trans hbe.symm
      · have hlow := hlt b hbt
        rw [← hid, hae] at hlow
        exact absurd hlow (EntryId.lt_irrefl _)
    · rcases List.mem_cons.mp hb with hbe | hbt
      · have hlow := hlt a hat
        rw [hid, hbe] at hlow
        exact absurd hlow (EntryId.lt_irrefl _)
      · exact ih hes hat hbt

theorem append_iff {es fs : List Entry} :
    Ascending (es ++ fs) ↔ Ascending es ∧ Ascending fs ∧ ∀ a ∈ es, ∀ b ∈ fs, a.id < b.id :=
  List.pairwise_append

theorem snoc {es : List Entry} {e : Entry} {last : EntryId} (h : Ascending es)
    (hes : ∀ a ∈ es, a.id ≤ last) (he : last < e.id) : Ascending (es ++ [e]) := by
  refine append_iff.mpr ⟨h, List.pairwise_singleton .., fun a ha b hb => ?_⟩
  rw [List.mem_singleton.mp hb]
  exact EntryId.lt_of_le_of_lt (hes a ha) he

theorem le_getLast {es : List Entry} {e a : Entry} (h : Ascending es) (he : es.getLast? = some e)
    (ha : a ∈ es) : a.id ≤ e.id := by
  obtain ⟨fs, rfl⟩ := List.getLast?_eq_some_iff.mp he
  rcases List.mem_append.mp ha with ha | ha
  · exact EntryId.le_of_lt ((append_iff.mp h).2.2 a ha e (by simp))
  · rw [List.mem_singleton.mp ha]
    exact EntryId.le_refl _

theorem filter_above_take {es : List Entry} {n : Nat} {e : Entry} (h : Ascending es)
    (he : (es.take n).getLast? = some e) : es.filter (fun a => e.id < a.id) = es.drop n := by
  have hsplit := es.take_append_drop n
  have h' : Ascending (es.take n ++ es.drop n) := by rwa [hsplit]
  obtain ⟨htake, -, hlt⟩ := append_iff.mp h'
  have hlow : (es.take n).filter (fun a => e.id < a.id) = [] := by
    refine List.filter_eq_nil_iff.mpr fun a ha => ?_
    simpa using EntryId.not_lt.mpr (htake.le_getLast he ha)
  have hhigh : (es.drop n).filter (fun a => e.id < a.id) = es.drop n := by
    refine List.filter_eq_self.mpr fun a ha => ?_
    simpa using hlt e (List.mem_of_getLast? he) a ha
  calc es.filter (fun a => e.id < a.id)
      = (es.take n ++ es.drop n).filter (fun a => e.id < a.id) := by rw [hsplit]
    _ = es.drop n := by rw [List.filter_append, hlow, hhigh, List.nil_append]

end Ascending

namespace Queue

def undelivered (q : Queue) (group : String) : List Entry :=
  match q.groups.find? group with
  | some cursor => q.entries.filter fun e => cursor < e.id
  | none => []

theorem undelivered_of_cursor {q : Queue} {g : String} {c : EntryId}
    (h : q.groups.find? g = some c) : q.undelivered g = q.entries.filter fun e => c < e.id := by
  simp only [undelivered, h]

theorem undelivered_of_none {q : Queue} {g : String} (h : q.groups.find? g = none) :
    q.undelivered g = [] := by
  simp only [undelivered, h]

theorem mem_undelivered {q : Queue} {g : String} {c : EntryId} {e : Entry}
    (h : q.groups.find? g = some c) : e ∈ q.undelivered g ↔ e ∈ q.entries ∧ c < e.id := by
  rw [undelivered_of_cursor h]
  simp

structure Handed (g : String) (q : Queue) (es : List Entry) (q' : Queue) : Prop where
  entries : q'.entries = q.entries
  lastId : q'.lastId = q.lastId
  others : ∀ g', g' ≠ g → q'.groups.find? g' = q.groups.find? g'
  split : q.undelivered g = es ++ q'.undelivered g
  cursor : ∃ c c', q.groups.find? g = some c ∧ q'.groups.find? g = some c' ∧ c ≤ c' ∧
    (∀ e ∈ es, e.id ≤ c') ∧ (c' = c ∨ ∃ e ∈ q.entries, c' = e.id)

namespace Handed

variable {g : String} {q q' q'' : Queue} {es fs : List Entry}

theorem trans (h : Handed g q es q') (k : Handed g q' fs q'') : Handed g q (es ++ fs) q'' := by
  obtain ⟨c, c₁, hc, hc₁, hle, hes, hfrom⟩ := h.cursor
  obtain ⟨c₂, c', hc₂, hc', hle', hfs, hfrom'⟩ := k.cursor
  obtain rfl : c₁ = c₂ := Option.some.inj (hc₁.symm.trans hc₂)
  refine ⟨k.entries.trans h.entries, k.lastId.trans h.lastId,
    fun g' hg => (k.others g' hg).trans (h.others g' hg), ?_,
    c, c', hc, hc', EntryId.le_trans hle hle', ?_, ?_⟩
  · rw [h.split, k.split, List.append_assoc]
  · intro e he
    rcases List.mem_append.mp he with he | he
    · exact EntryId.le_trans (hes e he) hle'
    · exact hfs e he
  · rcases hfrom' with rfl | ⟨e, he, rfl⟩
    · exact hfrom
    · exact .inr ⟨e, h.entries ▸ he, rfl⟩

theorem lt_of_mem (h : Handed g q es q') {c : EntryId} (hc : q.groups.find? g = some c) {e : Entry}
    (he : e ∈ es) : e ∈ q.entries ∧ c < e.id := by
  rw [← mem_undelivered hc, h.split]
  exact List.mem_append_left _ he

end Handed

theorem take?_cases {Q Q' : Queue} {g : String} {count : Nat} {es : List Entry}
    (ht : Q.take? g count = some (es, Q')) :
    ∃ cursor, Q.groups.find? g = some cursor ∧ es = Q.fresh cursor count ∧
      (es = [] ∧ Q' = Q ∨
        ∃ newest ∈ es, Q' = { Q with groups := Q.groups.set g newest.id }) := by
  unfold take? at ht
  obtain ⟨cursor, hcursor, ht⟩ := Option.bind_eq_some_iff.mp ht
  dsimp only at ht
  split at ht
  · next newest hlast =>
    obtain ⟨rfl, rfl⟩ := Prod.mk.inj (Option.some.inj ht)
    exact ⟨cursor, hcursor, rfl, .inr ⟨newest, List.mem_of_getLast? hlast, rfl⟩⟩
  · next hlast =>
    obtain ⟨rfl, rfl⟩ := Prod.mk.inj (Option.some.inj ht)
    exact ⟨cursor, hcursor, rfl, .inl ⟨List.getLast?_eq_none_iff.mp hlast, rfl⟩⟩

theorem take?_handed {g : String} {count : Nat} {q q' : Queue} {es : List Entry}
    (hq : Ascending q.entries) (h : q.take? g count = some (es, q')) : Handed g q es q' := by
  unfold take? at h
  cases hc : q.groups.find? g with
  | none => simp [hc] at h
  | some c =>
    have hfresh : q.fresh c count = (q.undelivered g).take count := by
      rw [undelivered_of_cursor hc, fresh]
    have hund : Ascending (q.undelivered g) := by
      rw [undelivered_of_cursor hc]
      exact hq.sublist List.filter_sublist
    simp only [hc, Option.bind_eq_bind, Option.bind_some] at h
    cases hlast : (q.fresh c count).getLast? with
    | none =>
      have hnil := List.getLast?_eq_none_iff.mp hlast
      rw [hnil] at h
      obtain ⟨rfl, rfl⟩ : [] = es ∧ q = q' := by simpa using h
      exact ⟨rfl, rfl, fun _ _ => rfl, rfl, c, c, hc, hc, EntryId.le_refl c, by simp, .inl rfl⟩
    | some newest =>
      rw [hlast] at h
      obtain ⟨rfl, rfl⟩ : q.fresh c count = es ∧
          { q with groups := q.groups.set g newest.id } = q' := by simpa using h
      have hmem := mem_fresh (List.mem_of_getLast? hlast)
      have hset : (q.groups.set g newest.id).find? g = some newest.id := by
        simp [Table.find?_set]
      have habove : (q.undelivered g).drop count =
          q.entries.filter fun e => newest.id < e.id := by
        rw [← hund.filter_above_take (hfresh ▸ hlast), undelivered_of_cursor hc, List.filter_filter]
        refine List.filter_congr fun e _ => ?_
        by_cases hlt : newest.id < e.id
        · simp [hlt, EntryId.lt_trans hmem.2 hlt]
        · simp [hlt]
      refine ⟨rfl, rfl, fun g' hg => ?_, ?_, c, newest.id, hc, hset,
        EntryId.le_of_lt hmem.2, fun e he => ?_, .inr ⟨newest, hmem.1, rfl⟩⟩
      · simp [Table.find?_set, hg]
      · have hrest : { q with groups := q.groups.set g newest.id }.undelivered g =
            q.entries.filter fun e => newest.id < e.id := undelivered_of_cursor hset
        rw [hrest, hfresh, ← habove, List.take_append_drop]
      · exact (hq.sublist ((List.take_sublist _ _).trans List.filter_sublist)).le_getLast hlast he

structure Pushed (q : Queue) (e : Entry) (dropped : Nat) (q' : Queue) : Prop where
  entries : q'.entries = (q.entries ++ [e]).drop dropped
  dropped_le : dropped ≤ q.entries.length
  groups : q'.groups = q.groups
  lastId : q'.lastId = e.id
  lt_id : q.lastId < e.id

/-- How many entries go once there is one more. -/
def excess (q : Queue) : Option Nat → Nat
  | some n => q.entries.length + 1 - n
  | none => 0

theorem push_pushed (q : Queue) (now : Nat) (e : Envelope) {maxLength : Option Nat}
    (h : ∀ n, maxLength = some n → 1 ≤ n) :
    Pushed q ⟨(q.push now e maxLength).1, e⟩ (q.excess maxLength) (q.push now e maxLength).2 := by
  cases maxLength with
  | none => exact ⟨rfl, Nat.zero_le _, rfl, rfl, lastId_lt_push q now e none⟩
  | some n =>
    have hn := h n rfl
    refine ⟨?_, ?_, rfl, rfl, lastId_lt_push q now e (some n)⟩
    · show List.drop ((q.entries ++ [(⟨q.lastId.after now, e⟩ : Entry)]).length - n) _ = _
      rw [List.length_append, List.length_singleton]
      rfl
    · show q.entries.length + 1 - n ≤ _
      omega

end Queue
end Hub
end BrokeredCalls
