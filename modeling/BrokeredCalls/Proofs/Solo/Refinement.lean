import BrokeredCalls.Proofs.Network.Script
import BrokeredCalls.Proofs.Solo.Completion

/-!
A node on its own refines a finite map: whatever entries it routes, and however often it fires, reloads
and is started afresh, its pending list and the durable hashes hold the same deferred calls, and it runs
each of them when it is due, with the payload of the map.
-/

namespace BrokeredCalls.Solo

open Network (Setup)
open Node (Effect Execution)
open Program (Runs Asks)

variable {node : Setup} {M : Plan} {W W' : World}

theorem mem_scanned {hub : Hub} {sources : List Node.Source} {t : DelayedTask} :
    t ∈ scanned node hub sources ↔
      (∃ source ∈ sources, t.service ∈ node.registry.servicesOn source.name) ∧
        ∃ field ∈ hub.hashFields (Key.delay t.service), Decimal.int64? field = some t.fireAt := by
  simp only [scanned, scannedServices, Node.Deferred.tasksOf, List.mem_flatMap, List.mem_filterMap,
    Option.map_eq_some_iff]
  constructor
  · rintro ⟨source, hs, service, hm, field, hf, time, ht, rfl⟩
    exact ⟨⟨source, hs, hm⟩, field, hf, ht⟩
  · rintro ⟨⟨source, hs, hm⟩, field, hf, ht⟩
    exact ⟨source, hs, t.service, hm, field, hf, t.fireAt, ht, rfl⟩

namespace Mirrors

variable {pending : TaskQueue} {hub : Hub}

theorem mem_scanned (h : Mirrors node M pending hub) {t : DelayedTask} :
    t ∈ scanned node hub node.shared.sources ↔ Planned M t := by
  rw [Solo.mem_scanned]
  constructor
  · rintro ⟨-, field, hf, ht⟩
    obtain ⟨payload, hp⟩ := Option.isSome_iff_exists.mp (Hub.mem_hashFields.mp hf)
    obtain ⟨time, rfl, hM⟩ := (h.durable _ _ _).mp hp
    rw [Decimal.int64?_ofInt64] at ht
    cases ht
    exact ⟨payload, hM⟩
  · rintro ⟨payload, hM⟩
    refine ⟨h.hosted t ⟨payload, hM⟩, Decimal.ofInt64 t.fireAt, ?_, Decimal.int64?_ofInt64 _⟩
    rw [Hub.mem_hashFields, h.field_eq, hM]
    rfl

theorem ofList_scanned (h : Mirrors node M pending hub) :
    .ofList (scanned node hub node.shared.sources) = pending := by
  refine TaskQueue.eq_of_mem_iff fun t => ?_
  rw [TaskQueue.mem_ofList, h.mem_scanned, h.pending]

theorem merge_scanned (h : Mirrors node M pending hub) :
    pending.merge (scanned node hub node.shared.sources) = pending := by
  refine TaskQueue.eq_of_mem_iff fun t => ?_
  rw [TaskQueue.mem_merge, h.mem_scanned, h.pending, or_self]

end Mirrors

def Follows (node : Setup) (M : Plan) (W : World) (act : Act) (W' : World) : Prop :=
  ∃ out M', M.Does act out M' ∧ Mirrors node M' W'.pending W'.hub ∧ W'.ran = out ++ W.ran

theorem Ran.follows {service : String} {payload : Bytes} {M' : Plan} {act : Act} {W₁ : World}
    (ran : Ran W₁ service payload W') (before : W₁.ran = W.ran)
    (does : M.Does act [(service, payload)] M') (mirrors : Mirrors node M' W₁.pending W₁.hub) :
    Follows node M W act W' := by
  refine ⟨_, M', does, ?_, ?_⟩
  · rw [ran.pending]
    exact mirrors.congr ran.hashes
  · rw [ran.ran, before]
    rfl

theorem route_follows {source : Node.Source} {d : Delivery}
    (mirrors : Mirrors node M W.pending W.hub) (fits : (Act.route source d).Fits node)
    (performs : Performs node W (.route source d) W') :
    Follows node M W (.route source d) W' := by
  obtain ⟨now, run⟩ := performs
  have hosts : node.Attends d.envelope.service := ⟨source, fits.1, fits.2⟩
  unfold Node.Dispatch.route at run
  cases hp : d.envelope.payload with
  | nil =>
    cases ht : d.envelope.fireAt with
    | none =>
      simp only [Envelope.isPlaceholder, hp, ht] at run
      obtain ⟨-, rfl⟩ := run
      exact ⟨[], M, .placeholder ht hp, mirrors, rfl⟩
    | some t =>
      simp only [Envelope.isPlaceholder, Envelope.isTombstone, hp, ht] at run
      obtain ⟨_, W₁, removed, -, rfl⟩ := Runs.bind_iff.mp run
      obtain ⟨-, rfl⟩ := remove_run.mp removed
      exact ⟨[], _, .tombstone t ht hp, mirrors.erase ⟨t, d.envelope.service⟩, rfl⟩
  | cons byte bytes =>
    have full : d.envelope.payload ≠ [] := by simp [hp]
    cases ht : d.envelope.fireAt with
    | none =>
      simp only [Envelope.isPlaceholder, hp, ht] at run
      exact (execution_run hosts (Runs.request_iff.mp run)).follows rfl (.immediate ht full) mirrors
    | some t =>
      simp only [Envelope.isPlaceholder, Envelope.isTombstone, hp, ht] at run
      obtain ⟨_, W₁, added, -, rfl⟩ := Runs.bind_iff.mp run
      obtain ⟨-, rfl⟩ := add_run.mp added
      exact ⟨[], _, .deferred t ht full, hp ▸ mirrors.set hosts full, rfl⟩

theorem fire_follows {now : FireTime} {last : Nat} (mirrors : Mirrors node M W.pending W.hub)
    (performs : Performs node W (.fire now last) W') : Follows node M W (.fire now last) W' := by
  obtain ⟨stop, next, run⟩ := performs
  obtain ⟨q, pause, hq, dealt⟩ := round_run run
  -- A merge before the look adds nothing: the list has what the hashes have.
  obtain rfl : q = W.pending := by
    rcases hq with rfl | rfl
    · rfl
    · exact mirrors.merge_scanned
  have looked := W.pending.looked_next now
  generalize W.pending.next now = found at looked dealt
  cases looked with
  | due t mem first le =>
    obtain ⟨payload, planned⟩ := (mirrors.pending t).mp mem
    have full : payload ≠ [] := by
      rintro rfl
      exact mirrors.full t planned
    have held := (mirrors.field_eq t).trans planned
    have does : M.Does (.fire now last) [(t.service, payload)] (M.erase t) :=
      .fires t payload planned (fun u hu => first u ((mirrors.pending u).mpr hu)) le
    obtain ⟨result, W₁, fired, ended⟩ := Runs.bind_iff.mp dealt
    have ran := fire_run (W := ⟨W.hub, W.pending.erase t, W.ran⟩)
      (mirrors.hosted t ⟨payload, planned⟩) held full fired
    have hW : W' = W₁ := by
      cases result <;> exact ended.2
    rw [hW]
    exact ran.follows rfl does (mirrors.erase t)
  | early n not_due later =>
    have hW : W' = W := by
      cases n with
      | due t => exact absurd rfl (not_due t)
      | later t => exact dealt.2
      | nothing => exact dealt.2
    rw [hW]
    exact ⟨[], M, .rests fun t ht => later t ((mirrors.pending t).mpr ht), mirrors, rfl⟩

theorem reload_pending (mirrors : Mirrors node M W.pending W.hub)
    (performs : Performs node W .reload W') : W' = W := by
  obtain ⟨now, r, run⟩ := performs
  obtain ⟨-, rfl⟩ := reload_run.mp run
  rw [mirrors.ofList_scanned]

theorem restart_pending (mirrors : Mirrors node M W.pending W.hub)
    (performs : Performs node W .restart W') : W' = W := by
  obtain ⟨now, r, run⟩ := performs
  obtain ⟨-, rfl⟩ := reload_run.mp run
  simp only [mirrors.ofList_scanned]

theorem Performs.follows {act : Act} (mirrors : Mirrors node M W.pending W.hub)
    (fits : act.Fits node) (performs : Performs node W act W') : Follows node M W act W' := by
  cases act with
  | route source d => exact route_follows mirrors fits performs
  | fire now last => exact fire_follows mirrors performs
  | reload =>
    rw [reload_pending mirrors performs]
    exact ⟨[], M, .reload, mirrors, rfl⟩
  | restart =>
    rw [restart_pending mirrors performs]
    exact ⟨[], M, .restart, mirrors, rfl⟩

inductive Lives (node : Setup) (W₀ : World) : List Act → World → Prop
  | start : Lives node W₀ [] W₀
  | act {acts : List Act} {W W' : World} (act : Act) (earlier : Lives node W₀ acts W)
    (fits : act.Fits node) (performs : Performs node W act W') : Lives node W₀ (act :: acts) W'

inductive Plan.Goes : List Act → List (String × Bytes) → Plan → Prop
  | start : Goes [] [] .empty
  | act {acts : List Act} {ran out : List (String × Bytes)} {M M' : Plan} (act : Act)
    (earlier : Goes acts ran M) (does : M.Does act out M') : Goes (act :: acts) (out ++ ran) M'

structure World.Fresh (W : World) : Prop where
  pending : W.pending = .empty
  hashes : ∀ service field, W.hub.field (Key.delay service) field = none
  ran : W.ran = []

theorem World.Fresh.mirrors (fresh : W.Fresh) (node : Setup) :
    Mirrors node .empty W.pending W.hub := by
  refine ⟨fun t => ?_, fun service field payload => ?_, ?_, fun t => nofun⟩
  · rw [fresh.pending]
    exact ⟨nofun, nofun⟩
  · rw [fresh.hashes]
    exact ⟨nofun, nofun⟩
  · rintro t ⟨payload, hp⟩
    cases hp

theorem Lives.mirrors {W₀ : World} {acts : List Act} (fresh : W₀.Fresh)
    (lives : Lives node W₀ acts W) :
    ∃ M, Plan.Goes acts W.ran M ∧ Mirrors node M W.pending W.hub := by
  induction lives with
  | start => exact ⟨.empty, fresh.ran ▸ .start, fresh.mirrors node⟩
  | act act earlier fits performs ih =>
    obtain ⟨M, goes, mirrors⟩ := ih
    obtain ⟨out, M', does, mirrors', ran⟩ := performs.follows mirrors fits
    exact ⟨M', ran ▸ .act act goes does, mirrors'⟩

theorem exists_lives (node : Setup) (W₀ : World) {acts : List Act}
    (fits : ∀ act ∈ acts, act.Fits node) : ∃ W, Lives node W₀ acts W := by
  induction acts with
  | nil => exact ⟨W₀, .start⟩
  | cons act acts ih =>
    obtain ⟨W, lives⟩ := ih fun act h => fits act (List.mem_cons_of_mem _ h)
    obtain ⟨W', performs⟩ := exists_performs node W act
    exact ⟨W', .act act lives (fits act List.mem_cons_self) performs⟩

structure Refines (node : Setup) (W₀ : World) : Prop where
  completes : ∀ acts : List Act, (∀ act ∈ acts, act.Fits node) → ∃ W, Lives node W₀ acts W
  mirrors : ∀ acts W, Lives node W₀ acts W → W.pending.tasks.Pairwise DelayedTask.Before ∧
    ∃ M, Plan.Goes acts W.ran M ∧ Mirrors node M W.pending W.hub
  reload : ∀ acts W W', Lives node W₀ acts W → Performs node W .reload W' → W'.pending = W.pending
  restart : ∀ acts W W', Lives node W₀ acts W → Performs node W .restart W' → W'.pending = W.pending

theorem World.Fresh.refines {W₀ : World} (fresh : W₀.Fresh) (node : Setup) : Refines node W₀ where
  completes _ fits := exists_lives node W₀ fits
  mirrors _ W lives := ⟨W.pending.ascending, lives.mirrors fresh⟩
  reload _ _ _ lives performs := by
    obtain ⟨_, _, mirrors⟩ := lives.mirrors fresh
    rw [reload_pending mirrors performs]
  restart _ _ _ lives performs := by
    obtain ⟨_, _, mirrors⟩ := lives.mirrors fresh
    rw [restart_pending mirrors performs]

def World.new : World := ⟨.empty, .empty, []⟩

theorem fresh_new : World.new.Fresh := ⟨rfl, fun _ _ => rfl, rfl⟩

theorem fits_echo {d : Delivery} (h : d.envelope.service = "s") :
    (Act.route ⟨"main", 0, "consumer"⟩ d).Fits (.echo "rpc") := by
  refine ⟨List.mem_singleton.mpr rfl, ?_⟩
  rw [h]
  exact Registry.mem_servicesOn.mpr ⟨_, rfl⟩

theorem refines_new : World.new.Fresh ∧ Refines (.echo "rpc") .new ∧
    ∀ d : Delivery, d.envelope.service = "s" →
      (Act.route ⟨"main", 0, "consumer"⟩ d).Fits (.echo "rpc") :=
  ⟨fresh_new, fresh_new.refines (.echo "rpc"), fun _ h => fits_echo h⟩

end BrokeredCalls.Solo
