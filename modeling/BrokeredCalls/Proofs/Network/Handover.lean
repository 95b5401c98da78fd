import Mathlib.Logic.Function.Basic
import BrokeredCalls.Proofs.Network.Replies

/-!
Which of the frames left on a list a taker got. Each was left by an event of its own, before it was
taken, and lists are first in, first out: so no two takers get what one event left.
-/

namespace BrokeredCalls.Network

variable {net : NodeId → Setup} {S S' : State} {H : List Event} {e : Event} {x w w' : TaskId}
  {key : String} {frame frame' : Bytes} {source : Nat → Nat} {stock stock' : List (Nat × Bytes)}
  {k p p' o : Nat}

def Leaves (H : List Event) (k : Nat) (x : TaskId) (key : String) (frame : Bytes)
    (a : Except Error Unit) : Prop :=
  ∃ b ttl, At H k (.served x (.broker b (.pushReply key frame ttl)) a)

def Takes (H : List Event) (p : Nat) (w : TaskId) (key : String) (frame : Bytes) : Prop :=
  ∃ b wait, At H p (.served w (.broker b (.popReply key wait)) (.ok (some frame)))

theorem Leaves.cons {a : Except Error Unit} (h : Leaves H k x key frame a) (e : Event) :
    Leaves (e :: H) k x key frame a := by
  obtain ⟨b, ttl, there⟩ := h
  exact ⟨b, ttl, there.cons e⟩

theorem Takes.lt (h : Takes H p w key frame) : p < H.length := by
  obtain ⟨b, wait, there⟩ := h
  exact there.lt

theorem Takes.inj (h : Takes H p w key frame) (h' : Takes H p w' key frame') :
    w = w' ∧ frame = frame' := by
  obtain ⟨b, wait, there⟩ := h
  obtain ⟨b', wait', there'⟩ := h'
  cases there.inj there'
  exact ⟨rfl, rfl⟩

theorem Takes.cons_iff : Takes (e :: H) p w key frame ↔
    (p = H.length ∧ ∃ b wait, e = .served w (.broker b (.popReply key wait)) (.ok (some frame))) ∨
      Takes H p w key frame := by
  simp only [Takes, At.cons_iff, exists_or, exists_and_left]

structure Handed (H : List Event) (key : String) (source : Nat → Nat) : Prop where
  left : ∀ p w frame, Takes H p w key frame →
    source p < p ∧ ∃ x, Leaves H (source p) x key frame (.ok ())
  ordered : ∀ p p' w w' frame frame', Takes H p w key frame → Takes H p' w' key frame' → p < p' →
    source p < source p'

theorem Handed.unique (handed : Handed H key source) (h : Takes H p w key frame)
    (h' : Takes H p' w' key frame') (same : source p = source p') : p = p' := by
  rcases Nat.lt_trichotomy p p' with lt | eq | lt
  · exact absurd same (Nat.ne_of_lt (handed.ordered _ _ _ _ _ _ h h' lt))
  · exact eq
  · exact absurd same.symm (Nat.ne_of_lt (handed.ordered _ _ _ _ _ _ h' h lt))

structure Stocked (H : List Event) (key : String) (source : Nat → Nat) (stock : List (Nat × Bytes)) :
    Prop where
  handed : Handed H key source
  left : ∀ y ∈ stock, ∃ x, Leaves H y.1 x key y.2 (.ok ())
  ascending : stock.Pairwise fun y z => y.1 < z.1
  later : ∀ p w frame, Takes H p w key frame → ∀ y ∈ stock, source p < y.1

namespace Stocked

theorem sublist (stocked : Stocked H key source stock) (sub : stock'.Sublist stock) :
    Stocked H key source stock' where
  handed := stocked.handed
  left y hy := stocked.left y (sub.subset hy)
  ascending := stocked.ascending.sublist sub
  later p w frame taken y hy := stocked.later p w frame taken y (sub.subset hy)

theorem cons (stocked : Stocked H key source stock)
    (kept : ∀ w b wait frame, e ≠ .served w (.broker b (.popReply key wait)) (.ok (some frame))) :
    Stocked (e :: H) key source stock := by
  have old {p : Nat} {w : TaskId} {frame : Bytes} (taken : Takes (e :: H) p w key frame) :
      Takes H p w key frame := by
    rcases Takes.cons_iff.mp taken with ⟨-, b, wait, new⟩ | taken
    · exact absurd new (kept w b wait frame)
    · exact taken
  refine ⟨⟨fun p w frame taken => ?_, fun p p' w w' frame frame' taken taken' =>
    stocked.handed.ordered _ _ _ _ _ _ (old taken) (old taken')⟩, fun y hy => ?_, stocked.ascending,
    fun p w frame taken => stocked.later p w frame (old taken)⟩
  · obtain ⟨before, x, leaves⟩ := stocked.handed.left p w frame (old taken)
    exact ⟨before, x, leaves.cons e⟩
  · obtain ⟨x, leaves⟩ := stocked.left y hy
    exact ⟨x, leaves.cons e⟩

theorem leave (stocked : Stocked H key source stock) {b : BrokerId} {ttl : Duration} :
    Stocked (.served x (.broker b (.pushReply key frame ttl)) (.ok ()) :: H) key source
      (stock ++ [(H.length, frame)]) := by
  have grown := stocked.cons (e := .served x (.broker b (.pushReply key frame ttl)) (.ok ())) (by simp)
  refine ⟨grown.handed, fun y hy => ?_, ?_, fun p w frame' taken y hy => ?_⟩
  · rcases List.mem_append.mp hy with hy | hy
    · exact grown.left y hy
    · obtain rfl := List.mem_singleton.mp hy
      exact ⟨x, b, ttl, At.head _⟩
  · refine List.pairwise_append.mpr ⟨stocked.ascending, List.pairwise_singleton _ _, ?_⟩
    intro y hy z hz
    obtain rfl := List.mem_singleton.mp hz
    obtain ⟨x', b', ttl', there⟩ := stocked.left y hy
    exact there.lt
  · rcases List.mem_append.mp hy with hy | hy
    · exact grown.later p w frame' taken y hy
    · obtain rfl := List.mem_singleton.mp hy
      rcases Takes.cons_iff.mp taken with ⟨-, b', wait, new⟩ | taken
      · cases new
      · exact Nat.lt_trans (stocked.handed.left p w frame' taken).1 taken.lt

theorem take (stocked : Stocked H key source ((o, frame) :: stock)) {b : BrokerId} {wait : Duration} :
    Stocked (.served w (.broker b (.popReply key wait)) (.ok (some frame)) :: H) key
      (Function.update source H.length o) stock := by
  obtain ⟨first, rest⟩ := List.pairwise_cons.mp stocked.ascending
  have new : Function.update source H.length o H.length = o := Function.update_self ..
  have old {p : Nat} {w : TaskId} {frame : Bytes} (taken : Takes H p w key frame) :
      Function.update source H.length o p = source p :=
    Function.update_of_ne (Nat.ne_of_lt taken.lt) ..
  refine ⟨⟨fun p w' frame' taken => ?_, fun p p' u u' f f' taken taken' before => ?_⟩,
    fun y hy => ?_, rest, fun p w' frame' taken y hy => ?_⟩
  · rcases Takes.cons_iff.mp taken with ⟨rfl, b', wait', heq⟩ | taken
    · cases heq
      obtain ⟨x, leaves⟩ := stocked.left _ List.mem_cons_self
      obtain ⟨b', ttl, there⟩ := leaves
      rw [new]
      exact ⟨there.lt, x, b', ttl, there.cons _⟩
    · obtain ⟨earlier, x, leaves⟩ := stocked.handed.left p w' frame' taken
      rw [old taken]
      exact ⟨earlier, x, leaves.cons _⟩
  · rcases Takes.cons_iff.mp taken' with ⟨rfl, -⟩ | taken'
    · rcases Takes.cons_iff.mp taken with ⟨rfl, -⟩ | taken
      · exact absurd before (Nat.lt_irrefl _)
      · rw [new, old taken]
        exact stocked.later p u f taken _ List.mem_cons_self
    · rcases Takes.cons_iff.mp taken with ⟨rfl, -⟩ | taken
      · exact absurd taken'.lt (Nat.lt_asymm before)
      · rw [old taken, old taken']
        exact stocked.handed.ordered _ _ _ _ _ _ taken taken' before
  · obtain ⟨x, leaves⟩ := stocked.left y (List.mem_cons_of_mem _ hy)
    exact ⟨x, leaves.cons _⟩
  · rcases Takes.cons_iff.mp taken with ⟨rfl, -⟩ | taken
    · rw [new]
      exact first y hy
    · rw [old taken]
      exact stocked.later p w' frame' taken y (List.mem_cons_of_mem _ hy)

theorem deal {d : Hub.Deed} {h h' : Hub} {now : Moment} {r : Node.Effect} {a : r.Answer}
    (stocked : Stocked H key source stock) (frames : stock.map Prod.snd = h.frames key)
    (dealt : Network.deal ⟨r, a⟩ = some d) (does : h.Does now d.1 d.2 h') :
    ∃ source' stock', Stocked (.served w r a :: H) key source' stock' ∧
      stock'.map Prod.snd = h'.frames key := by
  have sub := Hub.frames_of_does does key
  rw [← frames] at sub
  rcases d.popped_cases key with none | ⟨frame, wait, rfl, one⟩
  · rw [none, List.nil_append] at sub
    have kept : ∀ v b wait frame,
        Event.served w r a ≠ .served v (.broker b (.popReply key wait)) (.ok (some frame)) := by
      rintro v b wait frame ⟨⟩
      cases dealt
      simp [Hub.Deed.popped] at none
    rcases d.pushed_cases key with none' | ⟨frame, ttl, rfl, one⟩
    · rw [none', List.append_nil] at sub
      obtain ⟨stock', sub, eq⟩ := List.sublist_map_iff.mp sub
      exact ⟨source, stock', (stocked.cons kept).sublist sub, eq.symm⟩
    · obtain ⟨b, heq⟩ := exchange_of_deal (by simp) dealt
      cases heq
      have grown : Stocked (.served w (.broker b (.pushReply key frame ttl)) (.ok ()) :: H) key source
          (stock ++ [(H.length, frame)]) := stocked.leave
      have widened : stock.map Prod.snd ++ [frame] = (stock ++ [(H.length, frame)]).map Prod.snd := by
        simp
      rw [one, widened] at sub
      obtain ⟨stock', sub, eq⟩ := List.sublist_map_iff.mp sub
      exact ⟨source, stock', grown.sublist sub, eq.symm⟩
  · obtain ⟨b, heq⟩ := exchange_of_deal (by simp) dealt
    cases heq
    have nothing : Hub.Deed.pushed key ⟨.call (.popReply key wait), .ok (some frame)⟩ = [] := rfl
    rw [one, nothing, List.append_nil] at sub
    obtain ⟨stock', within, whole⟩ := List.sublist_map_iff.mp sub
    obtain ⟨⟨o, frame'⟩, rest, rfl, same, eq⟩ := List.map_eq_cons_iff.mp whole.symm
    obtain rfl : frame' = frame := same
    exact ⟨_, rest, (stocked.sublist within).take, eq⟩

end Stocked

theorem Reachable.stocked (reach : Reachable net S) (key : String) :
    ∃ source stock, Stocked S.history key source stock ∧ stock.map Prod.snd = S.hub.frames key := by
  induction reach with
  | start now =>
    refine ⟨id, [], ⟨⟨fun p w frame taken => ?_, fun p p' w w' frame frame' taken => ?_⟩, by simp,
      .nil, by simp⟩, rfl⟩
    · exact absurd taken.lt (Nat.not_lt_zero p)
    · exact absurd taken.lt (Nat.not_lt_zero p)
  | @step S S' earlier step ih =>
    obtain ⟨source, stock, stocked, frames⟩ := ih
    cases step with
    | pass now later => exact ⟨source, stock, stocked, frames⟩
    | again here => exact ⟨source, stock, stocked, frames⟩
    | begin n o => exact ⟨source, stock, stocked.cons (by simp), frames⟩
    | @serve t n j r next a h q here answers =>
      rcases answers.does with ⟨none, rfl⟩ | ⟨d, dealt, does⟩
      · refine ⟨source, stock, stocked.cons ?_, frames⟩
        rintro w b wait frame ⟨⟩
        cases none
      · exact stocked.deal frames dealt does

theorem Reachable.handed (reach : Reachable net S) (key : String) :
    ∃ source, Handed S.history key source := by
  obtain ⟨source, stock, stocked, -⟩ := reach.stocked key
  exact ⟨source, stocked.handed⟩

end BrokeredCalls.Network
