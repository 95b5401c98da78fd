import BrokeredCalls.Proofs.Hub.Looking
import BrokeredCalls.Proofs.Hub.Slots

/-!
One look at a store, and what it does to the reply lists. What a look of a pop finds is told by the pushes
and pops of its key before it: the store forgets expired lists late and emptied ones at once, and neither
shows.
-/

namespace BrokeredCalls.Slots

open Broker (Call)
open Hub (ReplyList)

structure Visit where
  task : Nat
  now : Moment
  call : Call
  found : Option (Except Error call.Value)

def Visit.deal? (key : String) : Visit → Option Deal
  | ⟨_, now, .pushReply k value ttl, some (.ok _)⟩ =>
    if k = key then some ⟨now.clock, .push value ttl⟩ else none
  | ⟨_, now, .popReply k _, some (.ok (some value))⟩ =>
    if k = key then some ⟨now.clock, .pop value⟩ else none
  | _ => none

def deals (key : String) (vs : List Visit) : List Deal := vs.filterMap (·.deal? key)

/-- Frames as a store lists them: it keeps no list without one. -/
def asList (frames : List Frame) (expiresAt : Nat) : Option ReplyList :=
  if frames.isEmpty then none else some ⟨frames.map (·.value), expiresAt⟩

/-- From the clock on, the live list of the key is what was dealt to it. -/
def Held (h : Hub) (clock : Nat) (key : String) (ds : List Deal) : Prop :=
  ∀ now : Moment, clock ≤ now.clock →
    h.liveList? now key = asList (waiting ds now.clock) (expiry ds)

variable {h h' : Hub} {now : Moment} {key : String} {ds : List Deal} {clock : Nat}

theorem liveList?_of_lists (same : h'.lists.find? key = h.lists.find? key) :
    h'.liveList? now key = h.liveList? now key := by
  unfold Hub.liveList?
  rw [same]

theorem Held.of_lists (held : Held h clock key ds)
    (same : h'.lists.find? key = h.lists.find? key) : Held h' clock key ds := by
  intro now le
  rw [liveList?_of_lists same]
  exact held now le

theorem liveList?_set (h : Hub) (now : Moment) (key : String) {fs : List Frame} (filled : fs ≠ [])
    (t : Nat) :
    ({ h with lists := h.lists.set key ⟨fs.map (·.value), t⟩ } : Hub).liveList? now key =
      asList (if now.clock < t then fs else []) t := by
  unfold Hub.liveList?
  simp only [Table.find?_set, if_true]
  by_cases expired : t ≤ now.clock
  · rw [if_pos expired, if_neg (Nat.not_lt.mpr expired)]
    rfl
  · rw [if_neg expired, if_pos (Nat.lt_of_not_le expired)]
    cases fs with
    | nil => exact absurd rfl filled
    | cons f fs => rfl

theorem liveList?_erase (h : Hub) (now : Moment) (key : String) :
    ({ h with lists := h.lists.erase key } : Hub).liveList? now key = none := by
  unfold Hub.liveList?
  simp only [Table.find?_erase, if_true]

theorem held_pushReply (held : Held h now.clock key ds) (value : Bytes) (ttl : Duration) :
    Held (h.pushReply now key value ttl) now.clock key (⟨now.clock, .push value ttl⟩ :: ds) := by
  let new : Frame := ⟨(pushes ds).length, value⟩
  have filled : waiting ds now.clock ++ [new] ≠ [] :=
    List.append_ne_nil_of_right_ne_nil _ (List.cons_ne_nil new [])
  have pushed : h.pushReply now key value ttl = { h with
      lists := h.lists.set key
        ⟨(waiting ds now.clock ++ [new]).map (·.value), now.clock + ttl.nanos⟩ } := by
    unfold Hub.pushReply
    rw [held now (Nat.le_refl _), List.map_append]
    unfold asList
    cases waiting ds now.clock <;> rfl
  intro later _
  rw [pushed, liveList?_set h later key filled]
  rfl

theorem held_popReply (held : Held h now.clock key ds) :
    (waiting ds now.clock = [] ∧ ∃ h', h.popReply now key = (none, h') ∧ Held h' now.clock key ds) ∨
      ∃ f rest h', waiting ds now.clock = f :: rest ∧ h.popReply now key = (some f.value, h') ∧
        Held h' now.clock key (⟨now.clock, .pop f.value⟩ :: ds) := by
  have live := held now (Nat.le_refl _)
  unfold Hub.popReply
  rw [live]
  cases there : waiting ds now.clock with
  | nil =>
    refine .inl ⟨rfl, _, rfl, fun later le => ?_⟩
    rw [liveList?_erase, waiting_later there le]
    rfl
  | cons f rest =>
    have next (later : Nat) : waiting (⟨now.clock, .pop f.value⟩ :: ds) later =
        if later < expiry ds then rest else [] := by
      show (if later < expiry ds then (frames ds).tail else []) = _
      rw [frames_of_waiting there, List.tail_cons]
    cases rest with
    | nil =>
      refine .inr ⟨f, [], _, rfl, rfl, fun later _ => ?_⟩
      rw [liveList?_erase, next, ite_self]
      rfl
    | cons g rest =>
      refine .inr ⟨f, g :: rest, _, rfl, rfl, fun later _ => ?_⟩
      rw [next]
      exact liveList?_set h later key (List.cons_ne_nil g rest) (expiry ds)

theorem find?_pushReply {k : String} (other : key ≠ k) (value : Bytes) (ttl : Duration) :
    (h.pushReply now k value ttl).lists.find? key = h.lists.find? key := by
  unfold Hub.pushReply
  simp only [Table.find?_set, other, if_false]

theorem find?_popReply (h : Hub) (now : Moment) {k : String} (other : key ≠ k) :
    (h.popReply now k).2.lists.find? key = h.lists.find? key := by
  unfold Hub.popReply
  split <;> simp only [Table.find?_set, Table.find?_erase, other, if_false]

theorem lists_of_look {c : Call} {r : Option (Except Error c.Value)}
    (looked : h.look now c = (r, h')) (hpush : ∀ key value ttl, c ≠ .pushReply key value ttl)
    (hpop : ∀ key timeout, c ≠ .popReply key timeout) : h'.lists = h.lists := by
  have served := Hub.serve_eq_look h now now.clock c
  rw [looked] at served
  cases r with
  | some r => exact Hub.lists_of_serve served hpush hpop
  | none =>
    obtain ⟨v, empty⟩ := Option.ne_none_iff_exists'.mp (Hub.waits_of_look looked)
    simp only [Nat.le_refl, if_true, empty, Option.map_some] at served
    exact Hub.lists_of_serve served hpush hpop

def Visit.Fair (earlier : List Visit) : Visit → Prop
  | ⟨_, _, .pushReply .., found⟩ => found = some (.ok ())
  | ⟨_, now, .popReply key _, found⟩ =>
    (∃ f, found = some (.ok (some f.value)) ∧ Oldest (deals key earlier) now.clock f ∧
      taken (⟨now.clock, .pop f.value⟩ :: deals key earlier) = f :: taken (deals key earlier)) ∨
    found = none ∧ ∀ f, ¬ Waits (deals key earlier) now.clock f
  | _ => True

theorem deals_cons (key : String) (v : Visit) (vs : List Visit) :
    deals key (v :: vs) = (v.deal? key).toList ++ deals key vs := by
  unfold deals
  cases hdeal : v.deal? key <;> simp [hdeal]

theorem held_deals_cons {v : Visit} {vs : List Visit} {k : String}
    (held : ∀ key, Held h clock key (deals key vs))
    (others : ∀ key, key ≠ k → v.deal? key = none ∧ h'.lists.find? key = h.lists.find? key)
    (own : Held h' clock k ((v.deal? k).toList ++ deals k vs)) (key : String) :
    Held h' clock key (deals key (v :: vs)) := by
  rw [deals_cons]
  by_cases other : key = k
  · subst other
    exact own
  · obtain ⟨undealt, same⟩ := others key other
    rw [undealt]
    exact (held key).of_lists same

theorem visit_looked {c : Call} {vs : List Visit} {r : Option (Except Error c.Value)} (i : Nat)
    (held : ∀ key, Held h now.clock key (deals key vs)) (looked : h.look now c = (r, h')) :
    Visit.Fair vs ⟨i, now, c, r⟩ ∧
      ∀ key, Held h' now.clock key (deals key (⟨i, now, c, r⟩ :: vs)) := by
  have same (undealt : ∀ key, Visit.deal? key ⟨i, now, c, r⟩ = none) (lists : h'.lists = h.lists) :
      ∀ key, Held h' now.clock key (deals key (⟨i, now, c, r⟩ :: vs)) := by
    intro key
    rw [deals_cons, undealt]
    exact (held key).of_lists (by rw [lists])
  cases c with
  | pushReply k value ttl =>
    obtain ⟨rfl, rfl⟩ := Prod.mk.inj looked
    refine ⟨rfl, held_deals_cons held (fun key other => ⟨if_neg (Ne.symm other), ?_⟩) ?_⟩
    · exact find?_pushReply other value ttl
    · simpa [Visit.deal?] using held_pushReply (held k) value ttl
  | popReply k timeout =>
    simp only [Hub.look] at looked
    have others (key : String) (other : key ≠ k) := find?_popReply h now other
    rcases held_popReply (held k) with ⟨none, h₁, popped, later⟩ | ⟨f, rest, h₁, there, popped, later⟩
    · rw [popped] at looked others
      obtain ⟨rfl, rfl⟩ := Prod.mk.inj looked
      refine ⟨.inr ⟨rfl, waiting_nil_iff.mp none⟩, held_deals_cons held (fun key other => ?_) later⟩
      exact ⟨rfl, others key other⟩
    · rw [popped] at looked others
      obtain ⟨rfl, rfl⟩ := Prod.mk.inj looked
      have head : taken (⟨now.clock, .pop f.value⟩ :: deals k vs) = f :: taken (deals k vs) := by
        rw [taken, frames_of_waiting there]
        rfl
      refine ⟨.inl ⟨f, rfl, oldest_of_waiting there, head⟩,
        held_deals_cons held (fun key other => ⟨if_neg (Ne.symm other), others key other⟩) ?_⟩
      simpa [Visit.deal?] using later
  | _ => exact ⟨trivial, same (fun _ => rfl) (lists_of_look looked (by intros; simp) (by intros; simp))⟩

end BrokeredCalls.Slots
