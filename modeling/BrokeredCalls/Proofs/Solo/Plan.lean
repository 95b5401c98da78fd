import BrokeredCalls.Proofs.Hosting
import BrokeredCalls.Proofs.Pending
import BrokeredCalls.Proofs.Text.Keys

/-!
Deferred calls as a finite map from task to payload, and how a pending list and the durable hashes
mirror it.
-/

namespace BrokeredCalls

namespace Solo

open Network (Setup)

inductive Act where
  | route (source : Node.Source) (d : Delivery)
  | fire (now : FireTime) (lastResync : Nat)
  | reload
  /-- A fresh node takes the place of the old one and reloads. -/
  | restart

abbrev Plan := Table DelayedTask Bytes

def Planned (M : Plan) (t : DelayedTask) : Prop := ∃ payload, M.find? t = some payload

inductive Plan.Does (M : Plan) : Act → List (String × Bytes) → Plan → Prop
  | deferred {source : Node.Source} {d : Delivery} (t : FireTime) (at_ : d.envelope.fireAt = some t)
    (full : d.envelope.payload ≠ []) :
    Does M (.route source d) [] (M.set ⟨t, d.envelope.service⟩ d.envelope.payload)
  | tombstone {source : Node.Source} {d : Delivery} (t : FireTime)
    (at_ : d.envelope.fireAt = some t) (empty : d.envelope.payload = []) :
    Does M (.route source d) [] (M.erase ⟨t, d.envelope.service⟩)
  | immediate {source : Node.Source} {d : Delivery} (now : d.envelope.fireAt = none)
    (full : d.envelope.payload ≠ []) :
    Does M (.route source d) [(d.envelope.service, d.envelope.payload)] M
  | placeholder {source : Node.Source} {d : Delivery} (now : d.envelope.fireAt = none)
    (empty : d.envelope.payload = []) : Does M (.route source d) [] M
  | fires {now : FireTime} {last : Nat} (t : DelayedTask) (payload : Bytes)
    (planned : M.find? t = some payload) (first : ∀ u, Planned M u → u = t ∨ t.Before u)
    (due : t.fireAt ≤ now) : Does M (.fire now last) [(t.service, payload)] (M.erase t)
  | rests {now : FireTime} {last : Nat} (early : ∀ t, Planned M t → now < t.fireAt) :
    Does M (.fire now last) [] M
  | reload : Does M .reload [] M
  | restart : Does M .restart [] M

theorem planned_set {M : Plan} {t u : DelayedTask} {payload : Bytes} :
    Planned (M.set t payload) u ↔ u = t ∨ Planned M u := by
  unfold Planned
  rw [Table.find?_set]
  by_cases hu : u = t
  · simp [hu]
  · simp [hu]

theorem planned_erase {M : Plan} {t u : DelayedTask} :
    Planned (M.erase t) u ↔ Planned M u ∧ u ≠ t := by
  unfold Planned
  rw [Table.find?_erase]
  by_cases hu : u = t
  · simp [hu]
  · simp [hu]

/-- The pending list holds the tasks of the plan, and the hashes hold them in decimal with their
payloads and nothing else. -/
structure Mirrors (node : Setup) (M : Plan) (pending : TaskQueue) (hub : Hub) : Prop where
  pending : ∀ t, t ∈ pending ↔ Planned M t
  durable : ∀ service field payload, hub.field (Key.delay service) field = some payload ↔
    ∃ t, field = Decimal.ofInt64 t ∧ M.find? ⟨t, service⟩ = some payload
  hosted : ∀ t, Planned M t → node.Attends t.service
  full : ∀ t, M.find? t ≠ some []

namespace Mirrors

variable {node : Setup} {M : Plan} {pending : TaskQueue} {hub hub' : Hub} {service : String}
  {t : FireTime} {payload : Bytes}

theorem field_eq (h : Mirrors node M pending hub) (t : DelayedTask) :
    hub.field (Key.delay t.service) (Decimal.ofInt64 t.fireAt) = M.find? t := by
  refine Option.ext fun payload => (h.durable _ _ _).trans ⟨?_, fun hp => ⟨t.fireAt, rfl, hp⟩⟩
  rintro ⟨t', ht, hp⟩
  rw [← Decimal.ofInt64_injective ht] at hp
  exact hp

theorem congr (h : Mirrors node M pending hub) (hashes : hub'.hashes = hub.hashes) :
    Mirrors node M pending hub' := by
  refine ⟨h.pending, fun service field payload => ?_, h.hosted, h.full⟩
  rw [← h.durable]
  unfold Hub.field Hub.hash
  rw [hashes]

theorem set (h : Mirrors node M pending hub) (hosts : node.Attends service) (full : payload ≠ []) :
    Mirrors node (M.set ⟨t, service⟩ payload) (pending.insert ⟨t, service⟩)
      (hub.hashSet (Key.delay service) (Decimal.ofInt64 t) payload) := by
  constructor
  · intro u
    rw [TaskQueue.mem_insert, planned_set, h.pending]
  · intro service' field payload'
    rw [Hub.field_hashSet]
    by_cases hsame : Key.delay service = Key.delay service' ∧ Decimal.ofInt64 t = field
    · obtain ⟨hs, rfl⟩ := hsame
      obtain rfl := Key.delay_injective hs
      rw [if_pos ⟨rfl, rfl⟩]
      constructor
      · intro hp
        exact ⟨t, rfl, by rw [Table.find?_set, if_pos rfl, hp]⟩
      · rintro ⟨t', ht, hp⟩
        obtain rfl := Decimal.ofInt64_injective ht
        rwa [Table.find?_set, if_pos rfl] at hp
    · rw [if_neg hsame, h.durable]
      refine exists_congr fun t' => and_congr_right fun ht => ?_
      rw [Table.find?_set, if_neg]
      rintro ⟨⟩
      exact hsame ⟨rfl, ht.symm⟩
  · intro u hu
    rcases planned_set.mp hu with rfl | hu
    · exact hosts
    · exact h.hosted u hu
  · intro u
    rw [Table.find?_set]
    split
    · exact fun heq => full (Option.some.inj heq)
    · exact h.full u

theorem erase (h : Mirrors node M pending hub) (t : DelayedTask) :
    Mirrors node (M.erase t) (pending.erase t)
      (hub.hashTake (Key.delay t.service) (Decimal.ofInt64 t.fireAt)).2 := by
  constructor
  · intro u
    rw [TaskQueue.mem_erase, planned_erase, h.pending]
  · intro service' field payload'
    rw [Hub.field_hashTake]
    by_cases hsame : Key.delay t.service = Key.delay service' ∧ Decimal.ofInt64 t.fireAt = field
    · obtain ⟨hs, rfl⟩ := hsame
      obtain rfl := Key.delay_injective hs
      rw [if_pos ⟨rfl, rfl⟩]
      refine ⟨fun gone => (by cases gone), ?_⟩
      rintro ⟨t', ht, hp⟩
      rw [← Decimal.ofInt64_injective ht, Table.find?_erase, if_pos rfl] at hp
      cases hp
    · rw [if_neg hsame, h.durable]
      refine exists_congr fun t' => and_congr_right fun ht => ?_
      rw [Table.find?_erase, if_neg]
      rintro rfl
      exact hsame ⟨rfl, ht.symm⟩
  · intro u hu
    exact h.hosted u (planned_erase.mp hu).1
  · intro u
    rw [Table.find?_erase]
    split
    · intro gone
      cases gone
    · exact h.full u

end Mirrors
end Solo
end BrokeredCalls
