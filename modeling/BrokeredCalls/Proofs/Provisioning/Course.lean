import BrokeredCalls.Proofs.Hosting
import BrokeredCalls.Proofs.Hub.Cursors
import BrokeredCalls.Proofs.Provisioning.Calls
import BrokeredCalls.Proofs.Runs

/-!
One provisioning of a queue with a group, while others use the store between its calls. It ends well
with a call that found or left the group attached, and it fails only if the queue was deleted behind
its last placeholder.
-/

namespace BrokeredCalls.Provisioning

open Broker (createGroupAgain ensureGroup)
open Program (Runs)

/-- What was done to the store, and by which provisioning, if it was one. -/
structure Event where
  owner : Option Nat
  made : Hub.Transition

def Foreign (i : Nat) (es : List Event) : Prop := ∀ e ∈ es, e.owner ≠ some i

theorem Foreign.nil (i : Nat) : Foreign i [] := List.forall_mem_nil _

theorem Foreign.cons {i : Nat} {e : Event} {es : List Event} (other : e.owner ≠ some i)
    (foreign : Foreign i es) : Foreign i (e :: es) := List.forall_mem_cons.mpr ⟨other, foreign⟩

def Among (i : Nat) : Broker.interface.Service (List Event) := fun past c a after =>
  ∃ others h now deadline h', Foreign i others ∧ h.serve now deadline c = some (a, h') ∧
    after = ⟨some i, ⟨h, now, .call c, a, h'⟩⟩ :: (others ++ past)

variable {i : Nat} {q g : String} {past after : List Event} {r : Except Error Unit}

inductive Outcome (i : Nat) (q g : String) : Except Error Unit → List Event → Prop
  | granted (e : Event) (rest : List Event) (own : e.owner = some i)
    (attached : e.made.after.carries q g = true) : Outcome i q g (.ok ()) (e :: rest)
  | refused (e p : Event) (others older : List Event) (own : e.owner = some i)
    (creates : e.made.action = .call (.createGroup q g))
    (missing : e.made.before.queues.find? q = none) (foreign : Foreign i others)
    (placed : p.owner = some i) (places : p.made.action = .call (.appendPlaceholder q))
    (there : p.made.after.queues.find? q ≠ none) :
    Outcome i q g (.error (.missingQueue q)) (e :: (others ++ p :: older))

theorem createGroup_cases {h h' : Hub} {now : Moment} {deadline : Nat} {r : Except Error Unit}
    (served : h.serve now deadline (.createGroup q g) = some (r, h')) :
    r = .ok () ∧ h'.carries q g = true ∨
      r = .error (.missingQueue q) ∧ h.queues.find? q = none ∧ h' = h := by
  rcases Hub.serve_createGroup served with ⟨rfl, missing, rfl⟩ | ⟨Q, rfl, -, rfl⟩
  · exact .inr ⟨rfl, missing, rfl⟩
  · refine .inl ⟨rfl, ?_⟩
    unfold Hub.carries
    rw [Table.find?_set, if_pos rfl]
    simp [Table.contains, Hub.Queue.find?_createGroup]

theorem there_of_placeholder {h h' : Hub} {now : Moment} {deadline : Nat} {r : Except Error String}
    (served : h.serve now deadline (.appendPlaceholder q) = some (r, h')) :
    (∃ id, r = .ok id) ∧ h'.queues.find? q ≠ none := by
  obtain ⟨rfl, rfl⟩ := Prod.mk.inj (Option.some.inj served)
  refine ⟨⟨_, rfl⟩, ?_⟩
  show (h.queues.set q _).find? q ≠ none
  rw [Table.find?_set, if_pos rfl]
  exact nofun

theorem createGroupAgain_outcome
    (run : Runs (Among i) (createGroupAgain q g).run past r after) : Outcome i q g r after := by
  obtain ⟨created, past₁, ⟨others, h, now, deadline, h', foreign, served, rfl⟩, run⟩ := run
  rcases createGroup_cases served with ⟨rfl, attached⟩ | ⟨rfl, -, rfl⟩
  · obtain ⟨rfl, rfl⟩ := run
    exact .granted _ _ rfl attached
  · obtain ⟨placed, past₂, ⟨others₂, h₂, now₂, deadline₂, h₂', foreign₂, served₂, rfl⟩, run⟩ := run
    obtain ⟨⟨id, rfl⟩, there⟩ := there_of_placeholder served₂
    obtain ⟨again, past₃, ⟨others₃, h₃, now₃, deadline₃, h₃', foreign₃, served₃, rfl⟩, run⟩ := run
    rcases createGroup_cases served₃ with ⟨rfl, attached⟩ | ⟨rfl, missing, -⟩
    · obtain ⟨rfl, rfl⟩ := run
      exact .granted _ _ rfl attached
    · obtain ⟨rfl, rfl⟩ := run
      exact .refused _ _ _ _ rfl rfl missing foreign₃ rfl rfl there

theorem mem_listGroups {h : Hub} {groups : List String} (listed : h.listGroups q = .ok groups) :
    g ∈ groups ↔ h.carries q g = true := by
  unfold Hub.listGroups at listed
  unfold Hub.carries
  cases hfind : h.queues.find? q with
  | none =>
    rw [hfind] at listed
    cases listed
  | some Q =>
    rw [hfind] at listed
    cases listed
    rw [Utf8.mem_ascending, Table.mem_keys_iff]

theorem listing_cases (run : Runs (Among i) (listing q g).run past r after) :
    ∃ others h now, Foreign i others ∧
      (h.carries q g = true ∧ r = .ok () ∧
          after = ⟨some i, ⟨h, now, .call (.listGroups q), h.listGroups q, h⟩⟩ :: (others ++ past) ∨
        h.carries q g = false ∧ Runs (Among i) (createGroupAgain q g).run
          (⟨some i, ⟨h, now, .call (.listGroups q), h.listGroups q, h⟩⟩ :: (others ++ past)) r after) := by
  obtain ⟨listed, past₁, ⟨others, h, now, deadline, h', foreign, served, rfl⟩, run⟩ := run
  obtain ⟨rfl, rfl⟩ := Prod.mk.inj (Option.some.inj served)
  refine ⟨others, h, now, foreign, ?_⟩
  generalize (⟨some i, ⟨h, now, .call (.listGroups q), h.listGroups q, h⟩⟩ :: (others ++ past) :
    List Event) = past₁ at run ⊢
  cases hlist : h.listGroups q with
  | ok groups =>
    have hmem := mem_listGroups (g := g) hlist
    have run : Runs (Among i) (if g ∈ groups then pure () else createGroupAgain q g :
        Fallible Broker.interface Error Unit).run past₁ r after := by
      rw [hlist] at run
      exact run
    by_cases hg : g ∈ groups
    · rw [if_pos hg] at run
      obtain ⟨rfl, rfl⟩ := run
      exact .inl ⟨hmem.mp hg, rfl, rfl⟩
    · rw [if_neg hg] at run
      exact .inr ⟨Bool.eq_false_iff.mpr fun hc => hg (hmem.mpr hc), run⟩
  | error e =>
    unfold Hub.listGroups at hlist
    cases hfind : h.queues.find? q with
    | some Q =>
      rw [hfind] at hlist
      cases hlist
    | none =>
      rw [hfind] at hlist
      cases hlist
      refine .inr ⟨?_, ?_⟩
      · unfold Hub.carries
        rw [hfind]
      · unfold Hub.listGroups at run
        rw [hfind] at run
        exact run

theorem listing_outcome (run : Runs (Among i) (listing q g).run past r after) :
    Outcome i q g r after := by
  obtain ⟨others, h, now, -, ⟨carried, rfl, rfl⟩ | ⟨-, run⟩⟩ := listing_cases run
  · exact .granted _ _ rfl carried
  · exact createGroupAgain_outcome run

theorem ensureGroup_cases (run : Runs (Among i) (ensureGroup q g).run past r after) :
    ∃ others h now, Foreign i others ∧
      ∃ past₁, (⟨some i, ⟨h, now, .call (.queueExists q), .ok (h.queues.contains q), h⟩⟩ ::
          (others ++ past)) <:+ past₁ ∧
        (h.queues.contains q = true → past₁ =
          ⟨some i, ⟨h, now, .call (.queueExists q), .ok (h.queues.contains q), h⟩⟩ :: (others ++ past)) ∧
        Runs (Among i) (listing q g).run past₁ r after := by
  rw [ensureGroup_eq] at run
  obtain ⟨found, past₁, ⟨others, h, now, deadline, h', foreign, served, rfl⟩, run⟩ := run
  obtain ⟨rfl, rfl⟩ := Prod.mk.inj (Option.some.inj served)
  refine ⟨others, h, now, foreign, ?_⟩
  cases hc : h.queues.contains q with
  | true =>
    rw [hc] at run
    exact ⟨_, List.suffix_refl _, fun _ => rfl, run⟩
  | false =>
    rw [hc] at run
    obtain ⟨placed, past₂, ⟨others₂, h₂, now₂, deadline₂, h₂', foreign₂, served₂, rfl⟩, run⟩ := run
    obtain ⟨⟨id, rfl⟩, -⟩ := there_of_placeholder served₂
    exact ⟨_, (List.suffix_append others₂ _).trans (List.suffix_cons _ _), nofun, run⟩

theorem ensureGroup_outcome (run : Runs (Among i) (ensureGroup q g).run past r after) :
    Outcome i q g r after := by
  obtain ⟨-, -, -, -, past₁, -, -, run⟩ := ensureGroup_cases run
  exact listing_outcome run

theorem suffix_of_runs {α : Type} {p : Program Broker.interface α} {a : α}
    (run : Runs (Among i) p past a after) : past <:+ after := by
  induction p generalizing past with
  | done b =>
    obtain ⟨rfl, rfl⟩ := run
    exact List.suffix_refl _
  | ask c next ih =>
    obtain ⟨x, _, ⟨others, h, now, deadline, h', -, -, rfl⟩, run⟩ := run
    exact ((List.suffix_append others past).trans (List.suffix_cons _ _)).trans (ih x run)

theorem ensureGroup_undisturbed (run : Runs (Among i) (ensureGroup q g).run past r after)
    (fresh : Foreign i past)
    (carried : ∀ e ∈ after, e.owner = some i → e.made.before.carries q g = true) :
    r = .ok () ∧ ∀ e ∈ after, e.owner = some i → e.made.after = e.made.before := by
  obtain ⟨others, h, now, foreign, past₁, hsuffix, hfound, run⟩ := ensureGroup_cases run
  have hlook := (hsuffix.trans (suffix_of_runs run)).subset List.mem_cons_self
  have found : h.queues.contains q = true := by
    have hc := carried _ hlook rfl
    unfold Hub.carries at hc
    unfold Table.contains
    cases hfind : h.queues.find? q with
    | some Q => rfl
    | none => simp [hfind] at hc
  obtain rfl := hfound found
  obtain ⟨others₂, h₂, now₂, foreign₂, ⟨-, rfl, rfl⟩ | ⟨missing, run⟩⟩ := listing_cases run
  · refine ⟨rfl, fun e he own => ?_⟩
    rcases List.mem_cons.mp he with rfl | he
    · rfl
    rcases List.mem_append.mp he with he | he
    · exact absurd own (foreign₂ e he)
    rcases List.mem_cons.mp he with rfl | he
    · rfl
    rcases List.mem_append.mp he with he | he
    · exact absurd own (foreign e he)
    · exact absurd own (fresh e he)
  · have hlist := carried _ ((suffix_of_runs run).subset List.mem_cons_self) rfl
    rw [missing] at hlist
    cases hlist

end BrokeredCalls.Provisioning
