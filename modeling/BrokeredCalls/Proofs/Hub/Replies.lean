import BrokeredCalls.Proofs.Hub.Serve

/-!
Reply lists: frames are taken from a list in the order in which they were pushed to it, each once at
most, and a list that expires is lost as a whole.
-/

namespace BrokeredCalls.Hub

open Broker (Call)

/-- The frames of a list, expired or not. -/
def frames (h : Hub) (key : String) : List Bytes := ((h.lists.find? key).map (·.values)).getD []

def Deed.pushed (key : String) : Deed → List Bytes
  | ⟨.call (.pushReply k v _), .ok _⟩ => if k = key then [v] else []
  | _ => []

def Deed.popped (key : String) : Deed → List Bytes
  | ⟨.call (.popReply k _), .ok (some v)⟩ => if k = key then [v] else []
  | _ => []

theorem Deed.pushed_cases (d : Deed) (key : String) : d.pushed key = [] ∨
    ∃ frame ttl, d = ⟨.call (.pushReply key frame ttl), .ok ()⟩ ∧ d.pushed key = [frame] := by
  unfold pushed
  split
  · split
    · next same =>
      subst same
      exact .inr ⟨_, _, rfl, rfl⟩
    · exact .inl rfl
  · exact .inl rfl

theorem Deed.popped_cases (d : Deed) (key : String) : d.popped key = [] ∨
    ∃ frame wait, d = ⟨.call (.popReply key wait), .ok (some frame)⟩ ∧ d.popped key = [frame] := by
  unfold popped
  split
  · split
    · next same =>
      subst same
      exact .inr ⟨_, _, rfl, rfl⟩
    · exact .inl rfl
  · exact .inl rfl

def pushedTo (key : String) : List Deed → List Bytes
  | [] => []
  | d :: ds => pushedTo key ds ++ d.pushed key

def poppedFrom (key : String) : List Deed → List Bytes
  | [] => []
  | d :: ds => poppedFrom key ds ++ d.popped key

theorem frames_of_live {h : Hub} {now : Moment} {key : String} {l : ReplyList}
    (hl : h.liveList? now key = some l) : h.frames key = l.values := by
  unfold liveList? at hl
  cases hf : h.lists.find? key with
  | none => simp [hf] at hl
  | some l' =>
    simp only [hf] at hl
    split at hl
    · cases hl
    · cases hl
      simp [frames, hf]

theorem frames_erase (h : Hub) (k key : String) :
    ({ h with lists := h.lists.erase k } : Hub).frames key =
      if key = k then [] else h.frames key := by
  simp only [frames, Table.find?_erase]
  split <;> rfl

theorem frames_set (h : Hub) (k key : String) (l : ReplyList) :
    ({ h with lists := h.lists.set k l } : Hub).frames key =
      if key = k then l.values else h.frames key := by
  simp only [frames, Table.find?_set]
  split <;> rfl

theorem frames_pushReply (h : Hub) (now : Moment) (k : String) (v : Bytes) (ttl : Duration)
    (key : String) :
    ((h.pushReply now k v ttl).frames key).Sublist
      (h.frames key ++ if k = key then [v] else []) := by
  unfold pushReply
  rw [frames_set]
  by_cases hk : key = k
  · subst hk
    rw [if_pos rfl, if_pos rfl]
    refine List.Sublist.append_right ?_ [v]
    cases hl : h.liveList? now key with
    | none => exact List.nil_sublist _
    | some l => simp [frames_of_live hl]
  · rw [if_neg hk]
    exact List.sublist_append_left _ _

theorem frames_popReply (h : Hub) (now : Moment) (k key : String) :
    ((if k = key then (h.popReply now k).1.toList else []) ++ (h.popReply now k).2.frames key).Sublist
      (h.frames key) := by
  by_cases hk : k = key
  · subst hk
    rw [if_pos rfl]
    unfold popReply
    cases hl : h.liveList? now k with
    | none => simp [frames_erase]
    | some l =>
      have hframes := frames_of_live hl
      obtain ⟨values, expiresAt⟩ := l
      cases values with
      | nil => simp [frames_erase]
      | cons v vs =>
        rw [hframes]
        cases vs with
        | nil => simp [frames_erase]
        | cons w vs => simp [frames_set]
  · rw [if_neg hk, List.nil_append]
    have hne : key ≠ k := Ne.symm hk
    unfold popReply
    split <;> simp [frames_erase, frames_set, hne]

theorem lists_of_serve {h h' : Hub} {now : Moment} {deadline : Nat} {c : Call}
    {r : Except Error c.Value} (hs : h.serve now deadline c = some (r, h'))
    (hpush : ∀ key value ttl, c ≠ .pushReply key value ttl)
    (hpop : ∀ key timeout, c ≠ .popReply key timeout) : h'.lists = h.lists := by
  cases c with
  | pushReply key value ttl => exact absurd rfl (hpush key value ttl)
  | popReply key timeout => exact absurd rfl (hpop key timeout)
  | createGroup queue group =>
    simp only [serve, createGroup] at hs
    grind
  | hashTake key field =>
    simp only [serve, hashTake] at hs
    grind
  | hashDelete key field =>
    simp only [serve, hashTake] at hs
    grind
  | readGroup group consumer queues count block =>
    rcases serve_readGroup hs with ⟨-, -, rfl⟩ | ⟨ds, hds, -⟩
    · rfl
    · rw [← (takeAll_rest group (max count 1) queues h).1, hds]
  | _ =>
    obtain ⟨rfl, rfl⟩ := Prod.mk.inj (Option.some.inj hs)
    rfl

theorem frames_of_does {h h' : Hub} {now : Moment} {a : Action} {r : a.Result}
    (hd : Does h now a r h') (key : String) :
    (Deed.popped key ⟨a, r⟩ ++ h'.frames key).Sublist (h.frames key ++ Deed.pushed key ⟨a, r⟩) := by
  have same (hpop : Deed.popped key ⟨a, r⟩ = []) (hl : h'.lists = h.lists) :
      (Deed.popped key ⟨a, r⟩ ++ h'.frames key).Sublist
        (h.frames key ++ Deed.pushed key ⟨a, r⟩) := by
    have hframes : h'.frames key = h.frames key := by simp only [frames, hl]
    rw [hpop, hframes]
    exact List.sublist_append_left _ _
  cases a with
  | delete queue =>
    obtain ⟨-, rfl⟩ : _ = r ∧ { h with queues := h.queues.erase queue } = h' := Prod.mk.inj hd
    exact same rfl rfl
  | call c =>
    rcases hd.cases with ⟨deadline, hs⟩ | ⟨e, -, rfl, rfl⟩
    · cases c with
      | pushReply k v ttl =>
        obtain ⟨rfl, rfl⟩ := Prod.mk.inj (Option.some.inj hs)
        exact frames_pushReply h now k v ttl key
      | popReply k timeout =>
        have hpop := frames_popReply h now k key
        simp only [serve] at hs
        generalize h.popReply now k = p at hs hpop
        obtain ⟨v, h₁⟩ := p
        cases v with
        | some v =>
          obtain ⟨rfl, rfl⟩ := Prod.mk.inj (Option.some.inj hs)
          exact hpop.trans (List.sublist_append_left _ _)
        | none =>
          by_cases hdue : deadline ≤ now.clock
          · simp only [hdue, if_true] at hs
            obtain ⟨rfl, rfl⟩ := Prod.mk.inj (Option.some.inj hs)
            simp only [Option.toList_none, ite_self, List.nil_append] at hpop
            exact hpop.trans (List.sublist_append_left _ _)
          · simp [hdue] at hs
      | _ => exact same rfl (lists_of_serve hs (by intros; simp) (by intros; simp))
    · cases c <;> exact same rfl rfl

theorem Run.frames_since {h₀ h : Hub} {ts : List Transition} (run : Run h₀ ts h) (key : String) :
    (poppedFrom key (deeds ts) ++ h.frames key).Sublist (h₀.frames key ++ pushedTo key (deeds ts)) := by
  induction run with
  | start => simp [deeds, poppedFrom, pushedTo]
  | @step older t earlier does ih =>
    have hone := frames_of_does does key
    rw [deeds, List.map_cons, poppedFrom, pushedTo, List.append_assoc, ← List.append_assoc (h₀.frames key)]
    have hkeep := hone.append_left (poppedFrom key (deeds older))
    have hgrow := ih.append_right (Deed.pushed key ⟨t.action, t.result⟩)
    rw [List.append_assoc] at hgrow
    exact hkeep.trans hgrow

theorem Run.frames {h : Hub} {ts : List Transition} (run : Run empty ts h) (key : String) :
    (poppedFrom key (deeds ts) ++ h.frames key).Sublist (pushedTo key (deeds ts)) :=
  run.frames_since key

theorem mem_pushedTo {key : String} {frame : Bytes} {ds : List Deed}
    (h : frame ∈ pushedTo key ds) :
    ∃ ttl, (⟨.call (.pushReply key frame ttl), .ok ()⟩ : Deed) ∈ ds := by
  induction ds with
  | nil => cases h
  | cons d ds ih =>
    rcases List.mem_append.mp h with hold | hnew
    · obtain ⟨ttl, hm⟩ := ih hold
      exact ⟨ttl, List.mem_cons_of_mem _ hm⟩
    · rcases d.pushed_cases key with none | ⟨frame', ttl, rfl, one⟩
      · rw [none] at hnew
        cases hnew
      · rw [one] at hnew
        cases List.mem_singleton.mp hnew
        exact ⟨ttl, List.mem_cons_self⟩

theorem mem_poppedFrom {key : String} {frame : Bytes} {wait : Duration} {ds : List Deed}
    (h : (⟨.call (.popReply key wait), .ok (some frame)⟩ : Deed) ∈ ds) :
    frame ∈ poppedFrom key ds := by
  induction ds with
  | nil => cases h
  | cons d ds ih =>
    unfold poppedFrom
    rcases List.mem_cons.mp h with rfl | hold
    · simp [Deed.popped]
    · exact List.mem_append_left _ (ih hold)

end BrokeredCalls.Hub
