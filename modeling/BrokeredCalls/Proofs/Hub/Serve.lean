import BrokeredCalls.Proofs.Hub.Run

/-!
What the open store does for each call, part by part: which calls touch its queues, and what a read
comes to.
-/

namespace BrokeredCalls.Hub

open Broker (Call)

def touchesQueues : Call → Bool
  | .append .. | .appendPlaceholder _ | .createGroup .. | .readGroup .. => true
  | _ => false

theorem queues_of_serve {h h' : Hub} {now : Moment} {deadline : Nat} {c : Call}
    {r : Except Error c.Value} (hs : h.serve now deadline c = some (r, h'))
    (hc : touchesQueues c = false) : h'.queues = h.queues := by
  cases c with
  | append | appendPlaceholder | createGroup | readGroup => cases hc
  | popReply key timeout =>
    simp only [serve, popReply] at hs
    grind
  | hashTake key field =>
    simp only [serve, hashTake] at hs
    grind
  | hashDelete key field =>
    simp only [serve, hashTake] at hs
    grind
  | _ =>
    obtain ⟨rfl, rfl⟩ := Prod.mk.inj (Option.some.inj hs)
    rfl

theorem serve_createGroup {h h' : Hub} {now : Moment} {deadline : Nat} {q g : String}
    {r : Except Error Unit} (hs : h.serve now deadline (.createGroup q g) = some (r, h')) :
    r = .error (.missingQueue q) ∧ h.queues.find? q = none ∧ h' = h ∨
      ∃ Q, r = .ok () ∧ h.queues.find? q = some Q ∧
        h' = { h with queues := h.queues.set q (Q.createGroup g) } := by
  simp only [serve, createGroup] at hs
  cases there : h.queues.find? q with
  | none =>
    rw [there] at hs
    obtain ⟨rfl, rfl⟩ := Prod.mk.inj (Option.some.inj hs)
    exact .inl ⟨rfl, rfl, rfl⟩
  | some Q =>
    rw [there] at hs
    obtain ⟨rfl, rfl⟩ := Prod.mk.inj (Option.some.inj hs)
    exact .inr ⟨Q, rfl, rfl, rfl⟩

theorem takeAll_rest (group : String) (count : Nat) (names : List String) (h : Hub) :
    (takeAll group count names h).2.lists = h.lists ∧
      (takeAll group count names h).2.hashes = h.hashes := by
  induction names generalizing h with
  | nil => exact ⟨rfl, rfl⟩
  | cons name names ih =>
    unfold takeAll
    split
    · exact ih _
    · exact ih h

theorem takeAll_of_read {h : Hub} {g : String} {queues : List String} {count : Nat}
    {taken : List Delivery × Hub} (hr : h.read g queues count = .ok taken) :
    takeAll g (max count 1) queues h = taken := by
  unfold read at hr
  split at hr
  · cases hr
  · exact Except.ok.inj hr

theorem serve_readGroup {h h' : Hub} {now : Moment} {deadline count : Nat} {g consumer : String}
    {queues : List String} {block : Duration} {r : Except Error (List Delivery)}
    (hs : h.serve now deadline (.readGroup g consumer queues count block) = some (r, h')) :
    (∃ e, r = .error e ∧ h' = h) ∨
      ∃ ds, takeAll g (max count 1) queues h = (ds, h') ∧ r = .ok ds := by
  simp only [serve] at hs
  cases hread : h.read g queues count with
  | error e =>
    rw [hread] at hs
    obtain ⟨rfl, rfl⟩ := Prod.mk.inj (Option.some.inj hs)
    exact .inl ⟨e, rfl, rfl⟩
  | ok taken =>
    obtain ⟨ds, k⟩ := taken
    have htake := takeAll_of_read hread
    rw [hread] at hs
    cases ds with
    | nil =>
      by_cases hdue : deadline ≤ now.clock
      · simp only [hdue, if_true] at hs
        obtain ⟨rfl, rfl⟩ := Prod.mk.inj (Option.some.inj hs)
        exact .inr ⟨[], htake, rfl⟩
      · simp [hdue] at hs
    | cons d ds =>
      obtain ⟨rfl, rfl⟩ := Prod.mk.inj (Option.some.inj hs)
      exact .inr ⟨d :: ds, htake, rfl⟩

theorem Does.error {h h' : Hub} {now : Moment} {c : Call} {e : Error}
    (hd : Does h now (.call c) (.error e) h') :
    e.isTransport = true ∨ ∃ q, e = .missingQueue q := by
  rcases hd.cases with ⟨deadline, hs⟩ | ⟨e', he, heq, -⟩
  · cases c with
    | listGroups q =>
      obtain ⟨hr, -⟩ := Prod.mk.inj (Option.some.inj hs)
      unfold listGroups at hr
      split at hr
      · cases hr
      · cases hr
        exact .inr ⟨q, rfl⟩
    | createGroup q g =>
      rcases serve_createGroup hs with ⟨heq, -, -⟩ | ⟨-, heq, -, -⟩
      · exact .inr ⟨q, Except.error.inj heq⟩
      · cases heq
    | readGroup g consumer queues count block =>
      simp only [serve, read] at hs
      grind
    | popReply key timeout =>
      simp only [serve] at hs
      grind
    | _ =>
      obtain ⟨hr, -⟩ := Prod.mk.inj (Option.some.inj hs)
      cases hr
  · cases heq
    exact .inl he

end BrokeredCalls.Hub
