import Mathlib.Data.List.Nodup
import BrokeredCalls.Proofs.Hub.Fields
import BrokeredCalls.Proofs.Network.Basic

/-!
Services that a node hosts: it has a handler for them, a broker for their data source, and scans their
hashes.
-/

namespace BrokeredCalls

theorem find?_iff_of_nodup_map {α κ : Type} [DecidableEq κ] {key : α → κ} {l : List α} {k : κ} {x : α}
    (nodup : (l.map key).Nodup) : l.find? (fun y => key y = k) = some x ↔ x ∈ l ∧ key x = k := by
  constructor
  · intro first
    exact ⟨List.mem_of_find?_eq_some first, by simpa using List.find?_some first⟩
  · rintro ⟨among, rfl⟩
    have found : (l.find? fun y => key y = key x).isSome := List.find?_isSome.mpr ⟨x, among, by simp⟩
    obtain ⟨y, first⟩ := Option.isSome_iff_exists.mp found
    have same : key y = key x := by simpa using List.find?_some first
    rw [first, List.inj_on_of_nodup_map nodup (List.mem_of_find?_eq_some first) among same]

theorem Utf8.mem_ascending {name : String} {names : List String} :
    name ∈ Utf8.ascending names ↔ name ∈ names := (List.mergeSort_perm names _).mem_iff

theorem Hub.mem_hashFields {h : Hub} {key f : String} :
    f ∈ h.hashFields key ↔ (h.field key f).isSome = true := by
  unfold Hub.hashFields Hub.field
  rw [Utf8.mem_ascending, Table.mem_keys_iff, Table.contains]

namespace Registry

theorem hosts_iff {r : Registry} {source service : String} :
    r.hosts source service = true ↔
      ∃ h, r.resolve service = some ⟨some h, source⟩ := by
  unfold hosts
  cases r.resolve service with
  | none => simp
  | some route =>
    obtain ⟨handler, source'⟩ := route
    cases handler <;> simp

theorem mem_servicesOn {r : Registry} {source service : String} :
    service ∈ r.servicesOn source ↔ ∃ h, r.resolve service = some ⟨some h, source⟩ := by
  unfold servicesOn
  rw [Utf8.mem_ascending, List.mem_filter, hosts_iff, Table.mem_keys_iff, Table.contains]
  refine and_iff_right_of_imp ?_
  rintro ⟨h, hr⟩
  rw [show r.routes.find? service = _ from hr]
  rfl

end Registry

theorem Node.Shared.exists_brokerOf {s : Node.Shared} {source : Node.Source}
    (h : source ∈ s.sources) : ∃ b, s.brokerOf source.name = some b := by
  unfold brokerOf
  cases hf : s.sources.find? fun x => x.name = source.name with
  | none =>
    have := List.find?_eq_none.mp hf source h
    simp at this
  | some x => exact ⟨x.broker, rfl⟩

theorem Node.Shared.brokerOf_of_nodup {s : Node.Shared} {source : Node.Source}
    (nodup : (s.sources.map (·.name)).Nodup) (among : source ∈ s.sources) :
    s.brokerOf source.name = some source.broker := by
  rw [brokerOf, (find?_iff_of_nodup_map nodup).mpr ⟨among, rfl⟩]
  rfl

namespace Network.Setup

def Attends (node : Setup) (service : String) : Prop :=
  ∃ source ∈ node.shared.sources, service ∈ node.registry.servicesOn source.name

variable {node : Setup} {service : String}

theorem Attends.resolve (h : node.Attends service) :
    ∃ handler source b, node.registry.resolve service = some ⟨some handler, source⟩ ∧
      node.shared.brokerOf source = some b := by
  obtain ⟨source, hs, hm⟩ := h
  obtain ⟨handler, hr⟩ := Registry.mem_servicesOn.mp hm
  obtain ⟨b, hb⟩ := Node.Shared.exists_brokerOf hs
  exact ⟨handler, source.name, b, hr, hb⟩

end Network.Setup
end BrokeredCalls
