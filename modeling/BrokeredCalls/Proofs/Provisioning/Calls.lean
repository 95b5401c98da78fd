import BrokeredCalls.Broker.Group
import BrokeredCalls.Proofs.Conduct

namespace BrokeredCalls.Provisioning

open Broker (Call createGroupAgain ensureGroup)
open Program (Asks Within)

def listing (queue group : String) : Fallible Broker.interface Error Unit := do
  match ← Broker.attempt (.listGroups queue) with
  | .ok groups => if group ∈ groups then return () else createGroupAgain queue group
  | .error (.missingQueue _) => createGroupAgain queue group
  | .error e => throw e

theorem ensureGroup_eq (queue group : String) : ensureGroup queue group = (do
    if !(← Broker.call (.queueExists queue)) then
      Broker.perform (.appendPlaceholder queue)
    listing queue group) := rfl

inductive Provisions (q g : String) : Call → Prop
  | look : Provisions q g (.queueExists q)
  | place : Provisions q g (.appendPlaceholder q)
  | list : Provisions q g (.listGroups q)
  | create : Provisions q g (.createGroup q g)

variable {queue group : String}

theorem asks_createGroupAgain :
    Asks (I := Broker.interface) (Provisions queue group) (createGroupAgain queue group).run := by
  refine .bindExcept (.lift (.request .create)) fun created => ?_
  cases created with
  | ok _ => exact trivial
  | error e =>
    cases e with
    | missingQueue q =>
      exact .bindExcept (.bindExcept (.request .place) fun _ => trivial) fun _ =>
        .bindExcept (.request .create) fun _ => trivial
    | _ => exact trivial

theorem asks_listing :
    Asks (I := Broker.interface) (Provisions queue group) (listing queue group).run := by
  refine .bindExcept (.lift (.request .list)) fun groups => ?_
  cases groups with
  | ok groups =>
    dsimp only
    split
    · exact trivial
    · exact asks_createGroupAgain
  | error e =>
    cases e with
    | missingQueue q => exact asks_createGroupAgain
    | _ => exact trivial

theorem asks_ensureGroup :
    Asks (I := Broker.interface) (Provisions queue group) (ensureGroup queue group).run := by
  rw [ensureGroup_eq]
  refine .bindExcept (.request .look) fun found => ?_
  cases found with
  | true => exact asks_listing
  | false => exact .bindExcept (.bindExcept (.request .place) fun _ => trivial) fun _ => asks_listing

theorem within_createGroupAgain :
    Within (I := Broker.interface) 3 (createGroupAgain queue group).run := by
  intro created
  cases created with
  | ok _ => exact trivial
  | error e =>
    cases e with
    | missingQueue q =>
      intro placed
      cases placed with
      | ok _ => exact fun again => by cases again <;> exact trivial
      | error e => exact trivial
    | _ => exact trivial

theorem within_listing : Within (I := Broker.interface) 4 (listing queue group).run := by
  intro listed
  cases listed with
  | ok groups =>
    show Within 3 (if group ∈ groups then pure () else createGroupAgain queue group :
      Fallible Broker.interface Error Unit).run
    split
    · exact trivial
    · exact within_createGroupAgain
  | error e =>
    cases e with
    | missingQueue q => exact within_createGroupAgain
    | _ => exact trivial

theorem within_ensureGroup : Within (I := Broker.interface) 6 (ensureGroup queue group).run := by
  rw [ensureGroup_eq]
  intro found
  cases found with
  | ok there =>
    cases there with
    | true => exact within_listing.mono (Nat.le_succ 4)
    | false =>
      intro placed
      cases placed with
      | ok _ => exact within_listing
      | error e => exact trivial
  | error e => exact trivial

section Measure

variable {p p' : String → Bool} (kept : ∀ q, p q = true → p' q = true)
include kept

theorem countP_not_le (services : List String) :
    services.countP (fun q => !p' q) ≤ services.countP fun q => !p q := by
  refine List.countP_mono_left fun q _ lacks => ?_
  rw [Bool.not_eq_true'] at lacks ⊢
  exact Bool.eq_false_iff.mpr fun there => Bool.eq_false_iff.mp lacks (kept q there)

theorem countP_not_lt {services : List String} {q : String} (mem : q ∈ services)
    (lacking : p q = false) (repaired : p' q = true) :
    services.countP (fun q => !p' q) < services.countP fun q => !p q := by
  obtain ⟨before, after, rfl⟩ := List.append_of_mem mem
  have first := countP_not_le kept before
  have rest := countP_not_le kept after
  simp only [List.countP_append, List.countP_cons, lacking, repaired, Bool.not_true, Bool.not_false,
    if_true, Bool.false_eq_true, if_false]
  omega

end Measure

end BrokeredCalls.Provisioning
