import BrokeredCalls.Proofs.Hub.Serve

/-!
The hashes of a store as the replay of the calls on them: a field holds what was last written to it,
unless it was taken or deleted since.
-/

namespace BrokeredCalls.Hub

open Broker (Call)

def field (h : Hub) (key f : String) : Option Bytes := (h.hash key).find? f

abbrev Change := String × Option Bytes

/-- What a deed changes in a hash. A take of what is not there changes nothing. -/
def Deed.change (key : String) : Deed → Option Change
  | ⟨.call (.hashSet k f v), .ok _⟩ => if k = key then some (f, some v) else none
  | ⟨.call (.hashTake k f), .ok (some _)⟩ => if k = key then some (f, none) else none
  | ⟨.call (.hashDelete k f), .ok _⟩ => if k = key then some (f, none) else none
  | _ => none

def Deed.write (key field : String) (d : Deed) : Option (Option Bytes) :=
  (d.change key).bind fun c => if c.1 = field then some c.2 else none

def replay (key field : String) : List Deed → Option Bytes
  | [] => none
  | d :: ds => (d.write key field).getD (replay key field ds)

def changes (key : String) : List Deed → List Change
  | [] => []
  | d :: ds => changes key ds ++ (d.change key).toList

/-- What changes leave of a field that was empty before. -/
def settle (field : String) (cs : List Change) : Option Bytes :=
  (cs.filter (·.1 = field)).getLast?.bind (·.2)

theorem settle_concat (field : String) (cs : List Change) (c : Change) :
    settle field (cs ++ [c]) = if c.1 = field then c.2 else settle field cs := by
  unfold settle
  rw [List.filter_append]
  by_cases hc : c.1 = field
  · simp [hc]
  · simp [hc]

theorem replay_eq_settle (key field : String) (ds : List Deed) :
    replay key field ds = settle field (changes key ds) := by
  induction ds with
  | nil => rfl
  | cons d ds ih =>
    unfold replay changes Deed.write
    cases d.change key with
    | none => simpa using ih
    | some c =>
      rw [Option.toList_some, settle_concat, ← ih, Option.bind_some]
      split <;> rfl

theorem Deed.eq_of_write {key field : String} {d : Deed} {v : Bytes}
    (h : d.write key field = some (some v)) : d = ⟨.call (.hashSet key field v), .ok ()⟩ := by
  obtain ⟨⟨f, w⟩, hc, hv⟩ := Option.bind_eq_some_iff.mp h
  obtain ⟨rfl, rfl⟩ : f = field ∧ w = some v := by simpa using hv
  unfold Deed.change at hc
  split at hc
  · split at hc
    · next hk =>
      subst hk
      cases hc
      rfl
    · cases hc
  · split at hc <;> cases hc
  · split at hc <;> cases hc
  · cases hc

theorem field_hashSet (h : Hub) (k f : String) (v : Bytes) (key f' : String) :
    (h.hashSet k f v).field key f' = if k = key ∧ f = f' then some v else h.field key f' := by
  have hk : (h.hashSet k f v).hash key = if key = k then (h.hash k).set f v else h.hash key := by
    simp only [hashSet, hash, Table.find?_set]
    split <;> rfl
  unfold field
  rw [hk]
  by_cases heq : key = k
  · subst heq
    rw [if_pos rfl, Table.find?_set]
    simp only [true_and, eq_comm]
  · rw [if_neg heq, if_neg (fun hc => heq hc.1.symm)]

theorem find?_of_isEmpty {t : Table String Bytes} (h : t.isEmpty = true) (f : String) :
    t.find? f = none := by
  have hnil : t.entries = [] := List.isEmpty_iff.mp h
  simp [Table.find?, hnil]

theorem find?_hashTake (h : Hub) (k f key f' : String) :
    ((h.hashTake k f).2.hash key).find? f' =
      if key = k then ((h.hash k).erase f).find? f' else (h.hash key).find? f' := by
  cases hf : h.hashes.find? k with
  | none =>
    have hsame : (h.hashTake k f).2 = h := by simp only [hashTake, hf]
    have hk : h.hash k = .empty := by simp [hash, hf]
    rw [hsame]
    split
    · next heq => rw [heq, hk, Table.find?_erase, Table.find?_empty, ite_self]
    · rfl
  | some fields =>
    have hk : h.hash k = fields := by simp [hash, hf]
    have hafter : (h.hashTake k f).2.hashes = if (fields.erase f).isEmpty then h.hashes.erase k
        else h.hashes.set k (fields.erase f) := by simp only [hashTake, hf]
    unfold hash at hk ⊢
    rw [hafter, hk]
    by_cases hempty : (fields.erase f).isEmpty = true
    · rw [if_pos hempty, Table.find?_erase]
      split
      · exact (find?_of_isEmpty hempty f').symm
      · rfl
    · rw [if_neg hempty, Table.find?_set]
      split <;> rfl

theorem field_hashTake (h : Hub) (k f key f' : String) :
    (h.hashTake k f).2.field key f' = if k = key ∧ f = f' then none else h.field key f' := by
  unfold field
  rw [find?_hashTake]
  by_cases hk : key = k
  · subst hk
    rw [if_pos rfl, Table.find?_erase]
    simp only [true_and, eq_comm]
  · rw [if_neg hk, if_neg (fun hc => hk hc.1.symm)]

theorem hashTake_fst (h : Hub) (k f : String) : (h.hashTake k f).1 = h.field k f := by
  unfold hashTake field hash
  cases h.hashes.find? k <;> rfl

def writesHashes : Call → Bool
  | .hashSet .. | .hashTake .. | .hashDelete .. => true
  | _ => false

theorem hashes_of_serve {h h' : Hub} {now : Moment} {deadline : Nat} {c : Call}
    {r : Except Error c.Value} (hs : h.serve now deadline c = some (r, h'))
    (hc : writesHashes c = false) : h'.hashes = h.hashes := by
  cases c with
  | hashSet | hashTake | hashDelete => cases hc
  | createGroup queue group =>
    simp only [serve, createGroup] at hs
    grind
  | popReply key timeout =>
    simp only [serve, popReply] at hs
    grind
  | readGroup group consumer queues count block =>
    rcases serve_readGroup hs with ⟨-, -, rfl⟩ | ⟨ds, hds, -⟩
    · rfl
    · rw [← (takeAll_rest group (max count 1) queues h).2, hds]
  | _ =>
    obtain ⟨rfl, rfl⟩ := Prod.mk.inj (Option.some.inj hs)
    rfl

theorem field_of_does {h h' : Hub} {now : Moment} {a : Action} {r : a.Result}
    (hd : Does h now a r h') (key f : String) :
    h'.field key f = (Deed.write key f ⟨a, r⟩).getD (h.field key f) := by
  have same (hh : h'.hashes = h.hashes) : h'.field key f = h.field key f := by
    simp only [field, hash, hh]
  cases a with
  | delete queue =>
    obtain ⟨-, rfl⟩ : _ = r ∧ { h with queues := h.queues.erase queue } = h' := Prod.mk.inj hd
    exact same rfl
  | call c =>
    rcases hd.cases with ⟨deadline, hs⟩ | ⟨e, -, rfl, rfl⟩
    · cases c with
      | hashSet k f' v =>
        obtain ⟨rfl, rfl⟩ := Prod.mk.inj (Option.some.inj hs)
        rw [field_hashSet]
        by_cases hk : k = key <;> by_cases hf : f' = f <;> simp [Deed.write, Deed.change, hk, hf]
      | hashTake k f' =>
        have hr : Except.ok (h.hashTake k f').1 = r := (Prod.mk.inj (Option.some.inj hs)).1
        have hafter : (h.hashTake k f').2 = h' := (Prod.mk.inj (Option.some.inj hs)).2
        rw [← hr, ← hafter, field_hashTake, hashTake_fst]
        cases htaken : h.field k f' with
        | none =>
          by_cases hk : k = key ∧ f' = f
          · obtain ⟨rfl, rfl⟩ := hk
            simp [Deed.write, Deed.change, htaken]
          · simp [Deed.write, Deed.change, hk]
        | some v =>
          by_cases hk : k = key <;> by_cases hf : f' = f <;> simp [Deed.write, Deed.change, hk, hf]
      | hashDelete k f' =>
        have hr : Except.ok () = r := (Prod.mk.inj (Option.some.inj hs)).1
        have hafter : (h.hashTake k f').2 = h' := (Prod.mk.inj (Option.some.inj hs)).2
        rw [← hr, ← hafter, field_hashTake]
        by_cases hk : k = key <;> by_cases hf : f' = f <;> simp [Deed.write, Deed.change, hk, hf]
      | _ => exact same (hashes_of_serve hs rfl)
    · cases c <;> exact same rfl

theorem taken_of_does {h h' : Hub} {now : Moment} {key f : String} {v : Option Bytes}
    (hd : Does h now (.call (.hashTake key f)) (.ok v) h') : v = h.field key f := by
  rcases hd.cases with ⟨deadline, hs⟩ | ⟨e, -, heq, -⟩
  · have hv : Except.ok (h.hashTake key f).1 = Except.ok (ε := Error) v :=
      (Prod.mk.inj (Option.some.inj hs)).1
    rw [← hashTake_fst]
    exact (Except.ok.inj hv).symm
  · cases heq

theorem field_of_taken {h h' : Hub} {now : Moment} {key f : String} {v : Option Bytes}
    (does : Does h now (.call (.hashTake key f)) (.ok v) h') : h'.field key f = none := by
  rw [field_of_does does]
  cases v with
  | none => exact (taken_of_does does).symm
  | some payload => simp [Deed.write, Deed.change]

theorem fields_of_does {h h' : Hub} {now : Moment} {key : String} {fs : List String}
    (hd : Does h now (.call (.hashFields key)) (.ok fs) h') : fs = h.hashFields key := by
  rcases hd.cases with ⟨deadline, hs⟩ | ⟨e, -, heq, -⟩
  · have hv : Except.ok (h.hashFields key) = Except.ok (ε := Error) fs :=
      (Prod.mk.inj (Option.some.inj hs)).1
    exact (Except.ok.inj hv).symm
  · cases heq

theorem Run.field {h : Hub} {ts : List Transition} (run : Run empty ts h) (key f : String) :
    h.field key f = replay key f (deeds ts) := by
  induction run with
  | start => rfl
  | step t earlier does ih =>
    rw [field_of_does does key f, ih]
    rfl

end BrokeredCalls.Hub
