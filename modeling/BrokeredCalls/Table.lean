/-! Finite maps as lists of pairs with distinct keys, the newest first. -/

namespace BrokeredCalls

structure Table (κ ν : Type) where
  entries : List (κ × ν)
  distinct : (entries.map (·.1)).Nodup
  deriving Repr

namespace Table

variable {κ ν : Type} [DecidableEq κ]

def empty : Table κ ν := ⟨[], .nil⟩

instance : Inhabited (Table κ ν) := ⟨empty⟩

def find? (t : Table κ ν) (k : κ) : Option ν := (t.entries.find? fun e => e.1 = k).map (·.2)

def contains (t : Table κ ν) (k : κ) : Bool := (t.find? k).isSome

def keys (t : Table κ ν) : List κ := t.entries.map (·.1)

def isEmpty (t : Table κ ν) : Bool := t.entries.isEmpty

def erase (t : Table κ ν) (k : κ) : Table κ ν where
  entries := t.entries.filter fun e => e.1 ≠ k
  distinct := t.distinct.sublist (List.filter_sublist.map _)

theorem not_mem_keys_erase (t : Table κ ν) (k : κ) : k ∉ (t.erase k).keys := by
  simp [keys, erase]

def set (t : Table κ ν) (k : κ) (v : ν) : Table κ ν where
  entries := (k, v) :: (t.erase k).entries
  distinct := List.nodup_cons.mpr ⟨t.not_mem_keys_erase k, (t.erase k).distinct⟩

omit [DecidableEq κ] in
theorem nodup_keys (t : Table κ ν) : t.keys.Nodup := t.distinct

theorem find?_empty (k : κ) : (empty : Table κ ν).find? k = none := rfl

theorem mem_keys_iff {t : Table κ ν} {k : κ} : k ∈ t.keys ↔ t.contains k := by
  simp [keys, contains, find?]

theorem find?_erase (t : Table κ ν) (k j : κ) :
    (t.erase k).find? j = if j = k then none else t.find? j := by
  show ((t.entries.filter fun e => e.1 ≠ k).find? fun e => e.1 = j).map (·.2) = _
  unfold find?
  induction t.entries with
  | nil => simp
  | cons e es ih =>
    by_cases hk : e.1 = k
    · simp only [List.filter_cons, hk, ne_eq, not_true_eq_false, decide_false, Bool.false_eq_true,
        if_false, List.find?_cons]
      rw [ih]
      by_cases hj : j = k
      · simp [hj]
      · simp [hj, Ne.symm hj]
    · simp only [List.filter_cons, hk, ne_eq, not_false_eq_true, decide_true, if_true,
        List.find?_cons]
      by_cases hj : e.1 = j
      · have : j ≠ k := fun h => hk (hj.trans h)
        simp [hj, this]
      · simpa [hj] using ih

theorem find?_set (t : Table κ ν) (k j : κ) (v : ν) :
    (t.set k v).find? j = if j = k then some v else t.find? j := by
  have h : (t.set k v).find? j = if k = j then some v else (t.erase k).find? j := by
    unfold set find?
    by_cases hk : k = j <;> simp [hk]
  rw [h, find?_erase]
  by_cases hj : j = k
  · simp [hj]
  · simp [hj, Ne.symm hj]

end Table
end BrokeredCalls
