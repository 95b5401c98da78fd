import BrokeredCalls.Proofs.Network.Holding

/-!
Every job holds a task only while it is on its way to settle it, and sees to services that its node
attends to.
-/

namespace BrokeredCalls.Network

open Node (Effect Execution Routine Attempt)
open Program (Asks Obeys)

variable {node : Setup} {tr : Trail}

theorem plain_of_quiet {r : Effect} (h : quiet r = true) : plain r = true := by
  cases r with
  | broker b c => cases c <;> first | rfl | cases h
  | pending | launch | readUnlessStopped => cases h
  | _ => rfl

theorem care_quiet {α : Type} {p : Routine α} (h : Quiet p) (free : Free tr) :
    Obeys (care node) (fun tr _ => Free tr) tr p :=
  care_plain (h.mono fun _ => plain_of_quiet) free

section Start

structure Fresh (tr : Trail) : Prop where
  free : Free tr
  unread : ∀ s fields, ¬ Read tr s fields

theorem fresh_nil : Fresh [] where
  free _ held := held
  unread _ _ := by simp [Read]

theorem Fresh.quiet {r : Effect} (fresh : Fresh tr) (h : quiet r = true) (a : r.Answer) :
    Fresh (⟨r, a⟩ :: tr) where
  free := fresh.free.plain (plain_of_quiet h) a
  unread s fields hr := by
    rcases Read.append_iff.mp (show Read ([⟨r, a⟩] ++ tr) s fields from hr) with hr | hr
    · refine not_read_singleton ?_ hr
      rintro b rfl
      cases h
    · exact fresh.unread s fields hr

theorem fresh_quiet {α : Type} {p : Routine α} (h : Quiet p) (fresh : Fresh tr) :
    Obeys (care node) (fun tr _ => Fresh tr) tr p :=
  h.obeys (fun _ _ fresh h => fresh.free.careful (lawful_of_plain (plain_of_quiet h)))
    (fun _ _ a fresh h => fresh.quiet h a) fresh

theorem care_reload (fresh : Fresh tr) :
    Obeys (care node) (fun tr _ => Free tr) tr (Node.Deferred.reload node.shared).run := by
  refine .bindExcept ((care_scan node.shared.sources fresh.free).mono fun tr' r hr => ?_)
  obtain ⟨free, gathers⟩ := hr
  cases r with
  | error e => exact free
  | ok ts =>
    obtain ⟨newer, rfl, gathered⟩ := gathers ts rfl
    have all : Gathered node.Attends (newer ++ tr) ts := by
      have := (gathered_nil fresh.unread).append gathered
      exact this.congr fun s => by simp [Setup.Attends]
    exact .lift (.request (free.careful all) fun _ _ t held => held)

def Attended (node : Setup) (r : Except Error (List (Node.Source × List String))) : Prop :=
  ∀ served, r = .ok served → ∀ e ∈ served, ∀ s ∈ e.2, node.Attends s

theorem care_provisionAll {sources : List Node.Source} (mem : ∀ x ∈ sources, x ∈ node.shared.sources)
    (fresh : Fresh tr) :
    Obeys (care node) (fun tr r => Fresh tr ∧ Attended node r) tr
      (Node.provisionAll node.shared sources).run := by
  induction sources generalizing tr with
  | nil =>
    refine .done ⟨fresh, ?_⟩
    rintro _ ⟨⟩ e he
    cases he
  | cons source rest ih =>
    have memRest : ∀ x ∈ rest, x ∈ node.shared.sources := fun x hx =>
      mem x (List.mem_cons_of_mem _ hx)
    refine .bindExcept (.lift (.request (fresh.free.careful trivial) fun services known => ?_))
    have fresh₁ := fresh.quiet (r := .servicesOn source.name) rfl services
    obtain rfl : services = node.registry.servicesOn source.name := known
    dsimp only
    split
    · exact ih memRest fresh₁
    · refine .bindExcept ((fresh_quiet (quiet_provision source.broker _) fresh₁).mono
        fun tr r fresh₂ => ?_)
      cases r with
      | error e => exact ⟨fresh₂, fun _ h => by cases h⟩
      | ok _ =>
        refine .bindExcept ((ih memRest fresh₂).mono fun tr r hr => ?_)
        obtain ⟨fresh₃, attended⟩ := hr
        cases r with
        | error e => exact ⟨fresh₃, fun _ h => by cases h⟩
        | ok more =>
          refine .done ⟨fresh₃, ?_⟩
          rintro _ ⟨⟩ e he s hs
          rcases List.mem_cons.mp he with rfl | he
          · exact ⟨source, mem source List.mem_cons_self, hs⟩
          · exact attended more rfl e he s hs

theorem care_startWorkers (fresh : Fresh tr) :
    Obeys (care node) (fun tr _ => Free tr) tr (Node.startWorkers node.shared).run := by
  refine .bindExcept ((care_provisionAll (fun _ h => h) fresh).mono fun tr r hr => ?_)
  obtain ⟨fresh₁, attended⟩ := hr
  cases r with
  | error e => exact fresh₁.free
  | ok served =>
    refine .bindExcept ((care_reload fresh₁).mono fun tr r free => ?_)
    cases r with
    | error e => exact free
    | ok count =>
      refine .bindExcept (.lift (.request (free.careful trivial) fun stop _ => ?_))
      have free₁ := free.plain (r := .subscribe) rfl stop
      refine .bindExcept (.lift (.request (free₁.careful trivial) fun now _ => ?_))
      have free₂ := free₁.plain (r := .clock) rfl now
      refine .lift (.request (free₂.careful ?_) fun _ _ t held => held)
      intro l hl
      rcases List.mem_cons.mp hl with rfl | hl
      · exact trivial
      · obtain ⟨e, he, rfl⟩ := List.mem_map.mp hl
        exact attended served rfl e he

theorem care_spawn (fresh : Fresh tr) :
    Obeys (care node) (fun tr _ => Free tr) tr (Node.spawn node.shared).run := by
  refine .bindExcept (.lift (.request (fresh.free.careful trivial) fun claimed _ => ?_))
  have fresh₁ := fresh.quiet (r := .claimSpawn) rfl claimed
  cases claimed with
  | true =>
    refine .bindExcept (.lift ((care_startWorkers fresh₁).mono fun tr r free => ?_))
    cases r with
    | ok _ => exact free
    | error e =>
      exact .bindExcept (.lift (.request (free.careful trivial) fun _ _ t held => held))
  | false => exact fresh₁.free

end Start

section Dispatch

theorem care_route {b : BrokerId} {d : Delivery} (attends : node.Attends d.envelope.service)
    (free : Free tr) :
    Obeys (care node) (fun tr _ => Free tr) tr (Node.Dispatch.route node.shared b d) := by
  unfold Node.Dispatch.route
  dsimp only
  split
  · exact .done free
  · split
    · refine .bind ?_
      split
      · exact (care_remove free).mono fun _ _ free => free
      · exact (care_add attends free).mono fun _ _ free => free
    · exact .request (free.careful trivial) fun _ _ t held => held

theorem care_routeAll {b : BrokerId} {ds : List Delivery}
    (attends : ∀ d ∈ ds, node.Attends d.envelope.service) (free : Free tr) :
    Obeys (care node) (fun tr _ => Free tr) tr (Node.Dispatch.routeAll node.shared b ds) := by
  induction ds generalizing tr with
  | nil => exact .done free
  | cons d ds ih =>
    refine .bind ((care_route (attends d List.mem_cons_self) free).mono fun tr _ free => ?_)
    exact ih (fun d h => attends d (List.mem_cons_of_mem _ h)) free

theorem care_handle {b : BrokerId} {stop : SignalId} {result : Except Error (List Delivery)}
    (attends : ∀ ds, result = .ok ds → ∀ d ∈ ds, node.Attends d.envelope.service) (free : Free tr) :
    Obeys (care node) (fun tr _ => Free tr) tr (Node.Dispatch.handle node.shared b stop result) := by
  cases result with
  | ok batch =>
    refine .bind ((care_quiet (quiet_acknowledgeAll _ _) free).mono fun tr _ free => ?_)
    exact .bind ((care_routeAll (attends batch rfl) free).mono fun tr _ free => .done free)
  | error e =>
    cases e with
    | missingQueue queue =>
      refine .bind ((care_quiet (quiet_ensureGroup b queue _) free).mono fun tr r free => ?_)
      cases r with
      | ok _ => exact .done free
      | error e => exact care_quiet (quiet_pause stop) free
    | _ => exact care_quiet (quiet_pause stop) free

theorem care_dispatching {b : BrokerId} {consumer : String} {services : List String}
    {stop : SignalId} (attends : ∀ s ∈ services, node.Attends s) (free : Free tr) :
    Obeys (care node) (fun tr r => Free tr ∧ ∀ l, r = some l → l = .dispatch b consumer services stop)
      tr (Node.Dispatch.round node.shared b consumer services stop) := by
  refine .bind (.request (free.careful trivial) fun raised _ => ?_)
  have free₁ := free.plain (r := .isRaised stop) rfl raised
  cases raised with
  | true => exact .done ⟨free₁, nofun⟩
  | false =>
    refine .bind (.request (free₁.careful attends) fun ended proper => ?_)
    have again : ∀ l, some (Node.Loop.dispatch b consumer services stop) = some l →
        l = .dispatch b consumer services stop := fun l h => (Option.some.inj h).symm
    cases ended with
    | abandoned => exact .done ⟨fun t held => held, nofun⟩
    | raised => exact .done ⟨fun t held => held, again⟩
    | value result =>
      refine .bind (Obeys.mono (care_handle ?_ ?_) fun tr goesOn free => ?_)
      · rintro ds rfl
        exact proper
      · exact fun t held => held
      · cases goesOn with
        | true => exact .done ⟨free, again⟩
        | false => exact .done ⟨free, nofun⟩

end Dispatch

theorem plain_routine (e : Execution) : Asks (fun r => plain r = true) e.routine :=
  e.asks_routine rfl (fun _ => rfl) fun _ => rfl

theorem care_operation {o : Operation} (known : Known node (.operation o)) :
    Obeys (care node) (fun tr _ => Free tr) [] (o.routine node.shared) := by
  cases o with
  | call service payload timeout =>
    exact care_quiet (quiet_callWithTimeout service payload timeout) fresh_nil.free
  | scheduleAt service instant payload =>
    exact care_quiet (quiet_scheduleAt service instant payload) fresh_nil.free
  | cancel service instant => exact care_quiet (quiet_cancel service instant) fresh_nil.free
  | awaitScheduled service instant timeout =>
    exact care_quiet (quiet_awaitScheduled service instant timeout) fresh_nil.free
  | add b service t payload => exact care_add (known service rfl) fresh_nil.free
  | remove b service t => exact care_remove fresh_nil.free
  | spawn => exact care_spawn fresh_nil
  | reload => exact care_reload fresh_nil
  | shutdown =>
    exact care_quiet (.bind (.request rfl) fun _ => .bind (.request rfl) fun _ =>
      quiet_closeAll node.shared.sources) fresh_nil.free

def CareEnding (node : Setup) (tr : Trail) (v : Ending) : Prop :=
  Free tr ∧ ∀ l, v = .again l → Known node (.loop l)

theorem care_work {j : Job} (known : Known node j) :
    Obeys (care node) (CareEnding node) [] (j.work node.shared) := by
  cases j with
  | operation o =>
    exact .bind ((care_operation known).mono fun tr v free => .done ⟨free, nofun⟩)
  | loop l =>
    refine .done ⟨fresh_nil.free, ?_⟩
    rintro _ ⟨⟩
    exact known
  | execution e =>
    exact .bind ((care_plain (plain_routine e) fresh_nil.free).mono fun tr _ free =>
      .done ⟨free, nofun⟩)

theorem care_round {l : Node.Loop} (known : Known node (.loop l)) (free : Free tr) :
    Obeys (care node) (CareEnding node) tr (round node.shared l) := by
  cases l with
  | dispatch b consumer services stop =>
    refine .bind ((care_dispatching known free).mono fun tr r hr => ?_)
    cases r with
    | none => exact .done ⟨hr.1, nofun⟩
    | some l =>
      obtain rfl := hr.2 l rfl
      refine .done ⟨hr.1, ?_⟩
      rintro _ ⟨⟩
      exact known
  | fire stop last =>
    refine .bind ((care_firing stop last free).mono fun tr r hr => ?_)
    cases r with
    | none => exact .done ⟨hr.1, nofun⟩
    | some l =>
      obtain ⟨stop', last', rfl⟩ := hr.2 l rfl
      refine .done ⟨hr.1, ?_⟩
      rintro _ ⟨⟩
      exact trivial

def careful (net : NodeId → Setup) : Discipline net where
  rule n j tr r := Known (net n) j → (∀ x ∈ tr, Proper (net n) x.1 x.2) → Careful (net n) tr r
  ending n j tr v :=
    Known (net n) j → (∀ x ∈ tr, Proper (net n) x.1 x.2) → CareEnding (net n) tr v
  works _ _ := .given fun known _ => care_work known
  again _ _ _ l ended := .given fun known proper =>
    care_round ((ended known proper).2 l rfl) (ended known proper).1

end BrokeredCalls.Network
