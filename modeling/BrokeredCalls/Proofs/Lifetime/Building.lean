import Mathlib.Data.List.Induction
import BrokeredCalls.Proofs.Lifetime.Listening
import BrokeredCalls.Proofs.Requests
import BrokeredCalls.Proofs.Settings

/-!
Nodes as they are built of a registry and of brokers. A node can be built just when its brokers have names
of their own and each data source of a route is one of them. Then every service has a broker, and a spawn
launches for each service with a handler one loop that reads its queue, and for the others none.
-/

namespace BrokeredCalls

theorem Table.mem_entries_iff {κ ν : Type} [DecidableEq κ] {t : Table κ ν} {k : κ} {v : ν} :
    (k, v) ∈ t.entries ↔ t.find? k = some v := by
  unfold find?
  simp only [Option.map_eq_some_iff, find?_iff_of_nodup_map t.distinct]
  constructor
  · intro among
    exact ⟨(k, v), ⟨among, rfl⟩, rfl⟩
  · rintro ⟨e, ⟨among, rfl⟩, rfl⟩
    exact among

namespace Registry

variable {r : Registry} {source : String}

theorem mem_sources :
    source ∈ r.sources ↔ ∃ service route, r.resolve service = some route ∧ route.source = source := by
  unfold sources
  rw [Utf8.mem_ascending, List.mem_eraseDups, List.mem_map]
  constructor
  · rintro ⟨⟨service, route⟩, among, rfl⟩
    exact ⟨service, route, Table.mem_entries_iff.mp among, rfl⟩
  · rintro ⟨service, route, resolved, rfl⟩
    exact ⟨(service, route), Table.mem_entries_iff.mpr resolved, rfl⟩

theorem nodup_servicesOn : (r.servicesOn source).Nodup :=
  (List.mergeSort_perm _ _).nodup_iff.mpr (r.routes.nodup_keys.filter _)

end Registry

namespace Lifetime

open Node (Effect Loop Shared Source)
open Program (Runs)
open Shutdown (Ordinary StoreId ordinary)

section Registrations

def Registration.route : Registration → Route
  | .host source _ h => ⟨some h, source⟩
  | .elsewhere _ source => ⟨none, source⟩

theorem Registration.resolve_apply_self (c : Registration) {r : Registry} :
    (c.apply r).resolve c.service = some c.route := by
  cases c <;> exact (Table.find?_set ..).trans (if_pos rfl)

def registered (history : List Registration) : Registry :=
  history.foldl (fun r c => c.apply r) .empty

def standing (history : List Registration) (service : String) : Option Route :=
  (history.reverse.find? fun c => c.service = service).map (·.route)

theorem registered_concat (history : List Registration) (c : Registration) :
    registered (history ++ [c]) = c.apply (registered history) := List.foldl_concat ..

theorem standing_append (history later : List Registration) (service : String) :
    standing (history ++ later) service = (standing later service).or (standing history service) := by
  rw [standing, List.reverse_append, List.find?_append, Option.map_or]
  rfl

theorem exists_of_standing {history : List Registration} {service : String} {route : Route}
    (stands : standing history service = some route) : ∃ c ∈ history, c.route = route := by
  obtain ⟨c, found, its⟩ := Option.map_eq_some_iff.mp stands
  exact ⟨c, List.mem_reverse.mp (List.mem_of_find?_eq_some found), its⟩

theorem resolve_registered (history : List Registration) (service : String) :
    (registered history).resolve service = standing history service := by
  induction history using List.reverseRecOn with
  | nil => rfl
  | append_singleton history c ih =>
    rw [registered_concat, standing_append]
    by_cases own : c.service = service
    · subst own
      simpa [standing] using c.resolve_apply_self
    · simpa [standing, own] using (c.resolve_apply own).trans ih

end Registrations

section Spawns

/-- The node is told of a registry that stays as it is, and what it launches is kept, the newest first.
All else may be answered anyhow. -/
def Watching (r : Registry) : Node.interface.Service (List (List Loop))
  | launched, .resolve service, a, launched' => a = r.resolve service ∧ launched' = launched
  | launched, .servicesOn source, a, launched' => a = r.servicesOn source ∧ launched' = launched
  | launched, .launch loops, _, launched' => launched' = loops :: launched
  | launched, _, _, launched' => launched' = launched

def occupied (r : Registry) (sources : List Source) : List (Source × List String) :=
  (sources.map fun x => (x, r.servicesOn x.name)).filter fun p => !p.2.isEmpty

variable {r : Registry} {s : Shared} {launched launched' : List (List Loop)}

theorem launched_of_ordinary {α : Type} {p : Node.Routine α} {a : α} (asks : Ordinary p)
    (run : Runs (Watching r) p launched a launched') : launched' = launched := by
  refine Runs.relates (R := fun l l' => l' = l) (fun _ => rfl) (fun _ _ _ h k => k.trans h) ?_ asks run
  intro l e a l' h served
  cases e with
  | resolve | servicesOn => exact served.2
  | launch => cases h
  | _ => exact served

theorem provisionAll_occupied {sources : List Source} {served : List (Source × List String)}
    (run : Runs (Watching r) (Node.provisionAll s sources).run launched (.ok served) launched') :
    served = occupied r sources := by
  induction sources generalizing served launched launched' with
  | nil =>
    cases run.1
    rfl
  | cons source rest ih =>
    obtain ⟨_, _, told, run⟩ := Runs.bindLift_iff.mp run
    obtain ⟨rfl, -⟩ := Runs.request_iff.mp told
    cases empty : (r.servicesOn source.name).isEmpty with
    | true =>
      simp only [empty, if_true] at run
      simpa [occupied, empty] using ih run
    | false =>
      simp only [empty, Bool.false_eq_true, if_false] at run
      obtain ⟨_, l₁, -, run⟩ | ⟨_, -, failed⟩ := Runs.bindExcept_iff.mp run
      · obtain ⟨more, l₂, runs, same, -⟩ | ⟨_, -, failed⟩ := Runs.bindExcept_iff.mp run
        · cases same
          simpa [occupied, empty] using ih runs
        · cases failed
      · cases failed

inductive Launches (r : Registry) (s : Shared) : Except Error Unit → List (List Loop) → Prop
  | started (stop : SignalId) (now : Nat) :
    Launches r s (.ok ()) [loopsOf stop now (occupied r s.sources)]
  | failed (e : Error) : Launches r s (.error e) []

theorem startWorkers_launches {x : Except Error Unit}
    (run : Runs (Watching r) (Node.startWorkers s).run [] x launched) :
    Launches r s x launched := by
  rcases Runs.bindExcept_iff.mp run with ⟨served, l₁, provisioned, run⟩ | ⟨e, provisioned, rfl⟩
  · obtain rfl := launched_of_ordinary (Shutdown.ordinary_provisionAll s.sources) provisioned
    rcases Runs.bindExcept_iff.mp run with ⟨_, l₂, reloaded, run⟩ | ⟨e, reloaded, rfl⟩
    · obtain rfl := launched_of_ordinary Shutdown.ordinary_reload reloaded
      obtain ⟨stop, _, subscribed, run⟩ := Runs.bindLift_iff.mp run
      obtain rfl := launched_of_ordinary (.request rfl) subscribed
      obtain ⟨now, _, read, run⟩ := Runs.bindLift_iff.mp run
      obtain rfl := launched_of_ordinary (.request rfl) read
      obtain ⟨_, launches, rfl⟩ := Runs.lift_iff.mp run
      rw [provisionAll_occupied provisioned] at launches
      obtain rfl := Runs.request_iff.mp launches
      exact .started stop now
    · obtain rfl := launched_of_ordinary Shutdown.ordinary_reload reloaded
      exact .failed e
  · obtain rfl := launched_of_ordinary (Shutdown.ordinary_provisionAll s.sources) provisioned
    exact .failed e

theorem spawn_launches {x : Except Error Unit}
    (run : Runs (Watching r) (Node.spawn s).run [] x launched) :
    Launches r s x launched := by
  obtain ⟨claimed, _, claims, run⟩ := Runs.bindLift_iff.mp run
  obtain rfl := Runs.request_iff.mp claims
  cases claimed with
  | false =>
    obtain ⟨rfl, rfl⟩ := run
    exact .failed _
  | true =>
    obtain ⟨started, l₁, starts, run⟩ := Runs.bindLift_iff.mp run
    have launches := startWorkers_launches starts
    cases started with
    | ok _ =>
      obtain ⟨rfl, rfl⟩ := run
      exact launches
    | error e =>
      obtain ⟨_, _, releases, run⟩ := Runs.bindLift_iff.mp run
      obtain ⟨rfl, rfl⟩ := run
      cases launches
      obtain rfl := Runs.request_iff.mp releases
      exact .failed e

theorem watching_of_gives {storeOf : BrokerId → StoreId} {w : World} {v v' : StoreId → Hub}
    {e : Effect} {a : e.Answer} (gives : Gives storeOf w v e a v') (launched : List (List Loop)) :
    ∃ launched', Watching w.registry launched e a launched' := by
  cases e with
  | resolve => exact gives.elim
  | servicesOn => exact ⟨launched, gives.1, rfl⟩
  | launch loops => exact ⟨loops :: launched, rfl⟩
  | _ => exact ⟨launched, rfl⟩

theorem exists_watched {storeOf : BrokerId → StoreId} {w : World} {v v' : StoreId → Hub} {α : Type}
    {p : Node.Routine α} {a : α} (run : Runs (Gives storeOf w) p v a v') (launched : List (List Loop)) :
    ∃ launched', Runs (Watching w.registry) p launched a launched' := by
  induction p generalizing v launched with
  | done b => exact ⟨launched, run.1, rfl⟩
  | ask e next ih =>
    obtain ⟨x, v₁, gives, run⟩ := run
    obtain ⟨l₁, watching⟩ := watching_of_gives gives launched
    obtain ⟨launched', run⟩ := ih x run l₁
    exact ⟨launched', x, l₁, watching, run⟩

theorem exists_spawn (r : Registry) (s : Shared) :
    ∃ launched, Runs (Watching r) (Node.spawn s).run [] (.ok ()) launched := by
  obtain ⟨_, run⟩ := exists_startWorkers id (w := .new r) (s := s) (fun _ _ => rfl) fun _ => .empty
  obtain ⟨launched, run⟩ : ∃ launched, Runs (Watching r) _ [] _ launched := exists_watched run []
  have claims : Runs (Watching r) (Node.ask .claimSpawn) [] true [] := Runs.request_iff.mpr rfl
  have ready : Runs (Watching r) (ExceptT.lift (Node.startWorkers s).run :
      Node.Attempt (Except Error Unit)).run [] (.ok (.ok ())) launched := lifted run
  exact ⟨launched, andThen (lifted claims) (andThen ready ⟨rfl, rfl⟩)⟩

end Spawns

section Serving

def serves (service : String) : Loop → Bool
  | .dispatch _ _ services _ => service ∈ services
  | .fire .. => false

structure Serving (r : Registry) (s : Shared) (loops : List Loop) : Prop where
  once : ∀ {service h source}, r.resolve service = some ⟨some h, source⟩ →
    loops.countP (serves service) = 1
  there : ∀ {service h source}, r.resolve service = some ⟨some h, source⟩ →
    ∃ x ∈ s.sources, ∃ services stop, x.name = source ∧
      .dispatch x.broker x.consumer services stop ∈ loops ∧ service ∈ services
  never : ∀ {service}, (∀ h source, r.resolve service ≠ some ⟨some h, source⟩) →
    loops.countP (serves service) = 0
  distinct : ∀ {b consumer services stop}, .dispatch b consumer services stop ∈ loops → services.Nodup

structure Complete (r : Registry) (s : Shared) : Prop where
  nodup : (s.sources.map (·.name)).Nodup
  covered : ∀ {service route}, r.resolve service = some route → route.source ∈ s.sources.map (·.name)

variable {r : Registry} {s : Shared} {service : String}

theorem countP_serves_loopsOf (stop : SignalId) (now : Nat) (sources : List Source) :
    (loopsOf stop now (occupied r sources)).countP (serves service) =
      sources.countP fun x => service ∈ r.servicesOn x.name := by
  rw [loopsOf, List.countP_cons_of_neg (by simp [serves]), List.countP_map, occupied,
    List.countP_filter, List.countP_map]
  refine List.countP_congr fun x _ => ?_
  simpa [serves] using fun hosted => List.ne_nil_of_mem hosted

theorem countP_named (nodup : (s.sources.map (·.name)).Nodup) {name : String}
    (among : name ∈ s.sources.map (·.name)) : s.sources.countP (fun x => x.name = name) = 1 := by
  have once : (s.sources.map (·.name)).count name = 1 := List.count_eq_one_of_mem nodup among
  rw [List.count, List.countP_map] at once
  exact (List.countP_congr fun x _ => by simp).trans once

theorem Complete.serving (complete : Complete r s) (stop : SignalId) (now : Nat) :
    Serving r s (loopsOf stop now (occupied r s.sources)) where
  once := by
    intro service h source resolved
    rw [countP_serves_loopsOf, ← countP_named complete.nodup (complete.covered resolved)]
    refine List.countP_congr fun x _ => ?_
    simp [Registry.mem_servicesOn, resolved, eq_comm]
  there := by
    intro service h source resolved
    obtain ⟨x, among, rfl⟩ := List.mem_map.mp (complete.covered resolved)
    have hosted : service ∈ r.servicesOn x.name := Registry.mem_servicesOn.mpr ⟨h, resolved⟩
    refine ⟨x, among, r.servicesOn x.name, stop, rfl, ?_, hosted⟩
    have listed : (x, r.servicesOn x.name) ∈ occupied r s.sources := by
      refine List.mem_filter.mpr ⟨List.mem_map_of_mem among, ?_⟩
      simp [List.ne_nil_of_mem hosted]
    exact List.mem_cons_of_mem _ (List.mem_map_of_mem listed)
  never := by
    intro service remote
    rw [countP_serves_loopsOf, List.countP_eq_zero]
    intro x _ hosted
    obtain ⟨h, resolved⟩ := Registry.mem_servicesOn.mp (of_decide_eq_true hosted)
    exact remote h x.name resolved
  distinct := by
    intro b consumer services stop' among
    obtain ⟨p, listed, same⟩ := List.mem_map.mp ((List.mem_cons.mp among).resolve_left nofun)
    obtain ⟨x, -, rfl⟩ := List.mem_map.mp (List.mem_filter.mp listed).1
    cases same
    exact Registry.nodup_servicesOn

end Serving

section Built

structure Hosts (r : Registry) (s : Shared) : Prop where
  resolves : ∀ {service route}, r.resolve service = some route →
    ∃ x ∈ s.sources, x.name = route.source ∧ ∀ {launched b launched'},
      Runs (Watching r) (Node.brokerFor s service).run launched b launched' ↔
        b = .ok x.broker ∧ launched' = launched
  starts : ∃ launched, Runs (Watching r) (Node.spawn s).run [] (.ok ()) launched
  serving : ∀ {launched}, Runs (Watching r) (Node.spawn s).run [] (.ok ()) launched →
    ∃ loops, launched = [loops] ∧ Serving r s loops
  failing : ∀ {e launched}, Runs (Watching r) (Node.spawn s).run [] (.error e) launched → launched = []

theorem Complete.hosts {r : Registry} {s : Shared} (complete : Complete r s) : Hosts r s where
  resolves := by
    intro service route resolved
    obtain ⟨x, among, named⟩ := List.mem_map.mp (complete.covered resolved)
    have here : s.located service (r.resolve service) = .ok x.broker := by
      rw [resolved, Shared.located, ← named, Shared.brokerOf_of_nodup complete.nodup among]
    refine ⟨x, among, named, ?_⟩
    intro launched b launched'
    rw [Node.brokerFor_eq, ← here]
    constructor
    · rintro ⟨_, _, ⟨rfl, rfl⟩, rfl, rfl⟩
      exact ⟨rfl, rfl⟩
    · rintro ⟨rfl, rfl⟩
      exact ⟨_, _, ⟨rfl, rfl⟩, rfl, rfl⟩
  starts := exists_spawn r s
  serving := by
    intro launched run
    cases spawn_launches run with
    | started stop now => exact ⟨_, rfl, complete.serving stop now⟩
  failing := by
    intro e launched run
    cases spawn_launches run
    rfl

structure Founded (history : List Registration) (given : List Source) (b : NodeBuilder) : Prop where
  standing : ∀ service, (registered history).resolve service = standing history service
  builds : (∃ c, b.build (given.map (·.name)) (registered history).sources = .ok c) ↔
    given ≠ [] ∧ (given.map (·.name)).Nodup ∧
      ∀ service route, Lifetime.standing history service = some route →
        route.source ∈ given.map (·.name)
  /-- Whatever order the node keeps its brokers in, and whatever is registered later on its data
  sources. -/
  hosts : ∀ {s : Shared}, b.build (given.map (·.name)) (registered history).sources = .ok s.config →
    s.sources.Perm given → ∀ later : List Registration,
      (∀ c ∈ later, c.route.source ∈ given.map (·.name)) → Hosts (registered (history ++ later)) s

variable {history : List Registration} {given : List Source} {b : NodeBuilder}

theorem build_ok_iff :
    (∃ c, b.build (given.map (·.name)) (registered history).sources = .ok c) ↔
      given ≠ [] ∧ (given.map (·.name)).Nodup ∧
        ∀ service route, standing history service = some route → route.source ∈ given.map (·.name) := by
  simp only [NodeBuilder.build_eq_ok_iff, exists_and_left, exists_eq, and_true,
    NodeBuilder.check_eq_ok_iff, ne_eq, List.map_eq_nil_iff, Registry.mem_sources, resolve_registered]
  refine and_congr_right fun _ => and_congr_right fun _ => ⟨?_, ?_⟩
  · intro covered service route stands
    exact covered route.source ⟨service, route, stands, rfl⟩
  · rintro covered _ ⟨service, route, stands, rfl⟩
    exact covered service route stands

theorem complete_of_build {s : Shared} {c : Config} {later : List Registration}
    (built : b.build (given.map (·.name)) (registered history).sources = .ok c)
    (order : s.sources.Perm given) (among : ∀ c ∈ later, c.route.source ∈ given.map (·.name)) :
    Complete (registered (history ++ later)) s := by
  obtain ⟨-, nodup, covered⟩ := build_ok_iff.mp ⟨c, built⟩
  have names : (s.sources.map (·.name)).Perm (given.map (·.name)) := order.map _
  refine ⟨names.nodup_iff.mpr nodup, fun {service route} resolved => names.mem_iff.mpr ?_⟩
  rw [resolve_registered, standing_append, Option.or_eq_some_iff] at resolved
  rcases resolved with newer | ⟨-, older⟩
  · obtain ⟨c, mem, rfl⟩ := exists_of_standing newer
    exact among c mem
  · exact covered service route older

/-- A node can be built just when its brokers are fit for the registry as it stands, and the node that is
built can route and serve all of it. -/
theorem build_founded (history : List Registration) (given : List Source) (b : NodeBuilder) :
    Founded history given b where
  standing := resolve_registered history
  builds := build_ok_iff
  hosts built order _ among := (complete_of_build built order among).hosts

end Built

end Lifetime
end BrokeredCalls
