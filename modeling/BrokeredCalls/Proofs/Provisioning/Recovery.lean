import BrokeredCalls.Proofs.Provisioning.Serving

/-!
A dispatch loop whose queues are gone. A read takes from all queues or fails on the first that is
missing or lacks the group; that one is provisioned, and the next read comes without a pause. Each such
round leaves fewer queues to repair, so the reads fail no more often than there are queues, and what
was not yet delivered from the others is there still.
-/

namespace BrokeredCalls.Recovery

open Broker (Call ensureGroup)
open Hub (carries cursor? takeAll)
open Node (Loop Shared onBrokerAttempt)
open Node.Dispatch (handle)
open Program (Asks Runs)
open Provisioning (Among Event Foreign Keeps Outcome Provisions)

def missing (services : List String) (g : String) (h : Hub) : Nat :=
  services.countP fun q => !h.carries q g

section Measure

variable {services : List String} {g : String} {h h' : Hub}

theorem missing_le (services : List String)
    (kept : ∀ q, h.carries q g = true → h'.carries q g = true) :
    missing services g h' ≤ missing services g h :=
  Provisioning.countP_not_le kept services

theorem missing_lt (kept : ∀ q, h.carries q g = true → h'.carries q g = true) {q : String}
    (mem : q ∈ services) (lacks : h.carries q g = false) (repaired : h'.carries q g = true) :
    missing services g h' < missing services g h :=
  Provisioning.countP_not_lt kept mem lacks repaired

end Measure

theorem read_error {h : Hub} {g : String} {services : List String} {count : Nat} {e : Error}
    (failed : h.read g services count = .error e) :
    ∃ q ∈ services, e = .missingQueue q ∧ h.carries q g = false := by
  unfold Hub.read at failed
  split at failed
  · next q hq =>
    cases failed
    refine ⟨q, List.mem_of_find?_eq_some hq, rfl, ?_⟩
    simpa using List.find?_some hq
  · cases failed

theorem served_error {h h' : Hub} {now : Moment} {deadline count : Nat} {g consumer : String}
    {services : List String} {block : Duration} {e : Error}
    (served : h.serve now deadline (.readGroup g consumer services count block) = some (.error e, h')) :
    ∃ q ∈ services, e = .missingQueue q ∧ h.carries q g = false := by
  simp only [Hub.serve] at served
  cases hread : h.read g services count with
  | error e' =>
    rw [hread] at served
    cases served
    exact read_error hread
  | ok taken =>
    obtain ⟨ds, h₁⟩ := taken
    rw [hread] at served
    cases ds with
    | nil =>
      simp only at served
      split at served <;> cases served
    | cons d ds => cases served

theorem filter_delivery (q name : String) (es : List Hub.Entry) :
    (es.map (Hub.Entry.delivery name)).filter (·.queue = q) =
      if name = q then es.map (Hub.Entry.delivery name) else [] := by
  split
  · next same => exact List.filter_eq_self.mpr (by simp [Hub.Entry.delivery, same])
  · next other => exact List.filter_eq_nil_iff.mpr (by simp [Hub.Entry.delivery, other])

theorem prefix_takeAll (g : String) (count : Nat) {services : List String} (h : Hub) {q : String}
    (mem : q ∈ services) :
    ((h.undelivered g q).take count).map (Hub.Entry.delivery q) <+:
      (takeAll g count services h).1.filter (·.queue = q) := by
  induction services generalizing h with
  | nil => cases mem
  | cons name names ih =>
    unfold takeAll
    by_cases same : name = q
    · subst same
      cases hc : h.cursor? name g with
      | none =>
        rw [Hub.cursor?_eq] at hc
        rw [Hub.undelivered, Hub.Queue.undelivered_of_none hc, List.take_nil, List.map_nil]
        exact List.nil_prefix
      | some c =>
        obtain ⟨Q, there, hcursor⟩ := Option.bind_eq_some_iff.mp hc
        obtain ⟨Q', htake⟩ := Hub.exists_take? hcursor count
        have here : h.queueAt name = Q := by rw [Hub.queueAt, there, Option.getD_some]
        rw [there, Option.bind_some, htake, List.filter_append, filter_delivery, if_pos rfl,
          Hub.undelivered, here, Hub.Queue.undelivered_of_cursor hcursor]
        exact List.prefix_append _ _
    · have mem := (List.mem_cons.mp mem).resolve_left (Ne.symm same)
      split
      · next es Q₁ _ =>
        rw [List.filter_append, filter_delivery, if_neg same, List.nil_append]
        have unchanged : Hub.undelivered { h with queues := h.queues.set name Q₁ } g q =
            h.undelivered g q := by
          rw [Hub.undelivered, Hub.queueAt_set, if_neg (Ne.symm same), Hub.undelivered]
        exact unchanged ▸ ih _ mem
      · exact ih h mem

def Lived (h₀ : Hub) (w : World) : Prop := Course ⟨h₀, []⟩ w w.history

variable {s : Shared} {b : BrokerId} {consumer : String} {services : List String} {stop : SignalId}
  {h₀ : Hub} {w w₁ w₂ w' : World}

theorem Lived.since {since : List Event} (lived : Lived h₀ w) (c : Course w w' since) :
    Lived h₀ w' := by
  have whole := lived.trans c
  rwa [← c.history] at whole

def readOf (s : Shared) (consumer : String) (services : List String) : Call :=
  .readGroup s.config.group consumer services s.config.readCount s.config.readBlock

theorem round_cases {r : Option Loop}
    (run : Runs Serving (Loop.round s (.dispatch b consumer services stop)) w r w') :
    ∃ w₁ w₂ result go, Turns w w₁ ∧ Own w₁ (readOf s consumer services) result w₂ ∧
      Runs Serving (handle s b stop result) w₂ go w' ∧
        r = if go then some (.dispatch b consumer services stop) else none := by
  obtain ⟨raised, w₀, ⟨rfl, turns₀⟩, run⟩ := run
  obtain ⟨ended, w₂, ⟨w₁, result, turns, own, rfl⟩, run⟩ := run
  have run : Runs Serving (handle s b stop result >>= fun go =>
    pure (if go then some (.dispatch b consumer services stop) else none)) w₂ r w' := run
  obtain ⟨go, _, handled, rfl, rfl⟩ := Runs.bind_iff.mp run
  exact ⟨w₁, w₂, result, go, turns₀.trans turns, own, handled, rfl⟩

theorem among_of_serving {c : Call} {r : Except Error c.Value}
    (served : Serving w (.broker b c) r w') : Among self w.history c r w'.history := by
  obtain ⟨w₁, turns, now, deadline, h, hs, rfl⟩ := served
  obtain ⟨since, course, foreign⟩ := turns.course
  refine ⟨since, w₁.hub, now, deadline, h, fun e he => ?_, hs, ?_⟩
  · rw [foreign e he]
    exact nofun
  · rw [← course.history]
    rfl

theorem provisioned (lived : Lived h₀ w) {q g : String} {r : Except Error Unit}
    (run : Runs Serving (onBrokerAttempt b (ensureGroup q g)).run w r w') :
    r = .ok () ∧ w'.hub.carries q g = true := by
  obtain ⟨since, course, -⟩ := mild_of_runs (asks_provision (g := g) b q) run
  have lived := lived.since course
  have among : Runs (Among self) (ensureGroup q g).run w.history r w'.history := by
    have run : Runs Serving ((ensureGroup q g).run.expand fun c => Node.ask (.broker b c)) w r w' := run
    refine Runs.map World.history (fun v c x v' served => ?_) (Runs.expand_iff.mp run)
    exact among_of_serving (Runs.request_iff.mp served)
  generalize hhist : w'.history = history at among
  have hrun := hhist ▸ lived.run
  have spares := hhist ▸ lived.spares
  cases Provisioning.ensureGroup_outcome among with
  | granted e rest own attached =>
    obtain ⟨-, -, hlast⟩ := hrun.last
    exact ⟨rfl, hlast ▸ attached⟩
  | refused e p others older own creates gone foreign placed places there =>
    obtain ⟨before, -, -⟩ := hrun.last
    rw [List.map_append, List.map_cons] at before
    obtain ⟨h₁, hold, hnew⟩ := before.split
    obtain ⟨-, -, rfl⟩ := hold.last
    obtain ⟨d, hd, deleted⟩ := hnew.queue_kept there gone
    obtain ⟨x, hx, rfl⟩ := List.mem_map.mp hd
    exact absurd deleted (spares x (by simp [hx]) q)

inductive Went (s : Shared) (consumer : String) (services : List String) (w w' : World) : Prop
  | read {w₁ w₂ : World} {ds : List Delivery} (turns : Turns w w₁)
    (reads : Own w₁ (readOf s consumer services) (.ok ds) w₂)
    (delivers : ∀ q ∈ services,
      ((w₁.hub.undelivered s.config.group q).take (max s.config.readCount 1)).map
        (Hub.Entry.delivery q) <+: ds.filter (·.queue = q))
    (handled : Mild w₂ w')
  | repaired {w₁ w₂ : World} {q : String} (turns : Turns w w₁)
    (reads : Own w₁ (readOf s consumer services) (.error (.missingQueue q)) w₂)
    (named : q ∈ services ∧ w₁.hub.carries q s.config.group = false) (same : w₂.hub = w₁.hub)
    (provisioned : Mild w₂ w') (repaired : w'.hub.carries q s.config.group = true)
    (fewer : missing services s.config.group w'.hub < missing services s.config.group w₁.hub)

theorem went (lived : Lived h₀ w) {r : Option Loop}
    (run : Runs Serving (Loop.round s (.dispatch b consumer services stop)) w r w') :
    r = some (.dispatch b consumer services stop) ∧ Went s consumer services w w' := by
  obtain ⟨w₁, w₂, result, go, turns, reads, handled, rfl⟩ := round_cases run
  obtain ⟨since, course, -⟩ := turns.course
  obtain ⟨now, read⟩ := reads.course
  have lived := (lived.since course).since read
  have mild := mild_of_runs (asks_handle b s stop result) handled
  have ⟨now, deadline, h, served, hw₂⟩ := reads
  rcases Hub.serve_readGroup served with ⟨e, rfl, same⟩ | ⟨ds, taken, rfl⟩
  · obtain ⟨q, mem, rfl, lacks⟩ := served_error served
    obtain ⟨result, w₃, provisioning, handled⟩ := Runs.bind_iff.mp handled
    obtain ⟨rfl, repaired⟩ := provisioned lived provisioning
    obtain ⟨rfl, rfl⟩ := handled
    have hub : w₂.hub = w₁.hub := by rw [hw₂, World.record, same]
    have ⟨since, course, _⟩ := mild
    have fewer := missing_lt (fun q hq => course.carries (hub ▸ hq)) mem lacks repaired
    exact ⟨rfl, .repaired turns reads ⟨mem, lacks⟩ hub mild repaired fewer⟩
  · obtain ⟨_, w₃, -, handled⟩ := Runs.bind_iff.mp handled
    obtain ⟨_, w₄, -, rfl, rfl⟩ := Runs.bind_iff.mp handled
    refine ⟨rfl, .read turns reads (fun q mem => ?_) mild⟩
    have delivers := prefix_takeAll s.config.group (max s.config.readCount 1) w₁.hub mem
    rwa [taken] at delivers

inductive Rounds (s : Shared) (l : Loop) : Nat → World → World → Prop
  | begin (w : World) : Rounds s l 0 w w
  | next {n : Nat} {w w₁ w' : World} (earlier : Rounds s l n w w₁)
    (run : Runs Serving (Loop.round s l) w₁ (some l) w') : Rounds s l (n + 1) w w'

structure Fair (s : Shared) (consumer : String) (services : List String) (e : Event) : Prop where
  named : failed e = true → ∃ q ∈ services,
    e.made.deed = ⟨.call (readOf s consumer services), .error (.missingQueue q)⟩ ∧
      e.made.before.carries q s.config.group = false ∧ e.made.after = e.made.before
  keeps : e.owner ≠ none → succeeded e = true ∨ Keeps e.made.before e.made.after

/-- What a stretch adds to a history: how many reads that failed, and how many that did not. -/
structure Adds (s : Shared) (consumer : String) (services : List String) (failures successes : Nat)
    (w w' : World) : Prop where
  course : ∃ since, Course w w' since ∧ ∀ e ∈ since, Fair s consumer services e
  failures : w'.history.countP failed = w.history.countP failed + failures
  successes : w'.history.countP succeeded = w.history.countP succeeded + successes

theorem Adds.trans {m n m' n' : Nat} (a : Adds s consumer services m n w w₁)
    (a' : Adds s consumer services m' n' w₁ w') :
    Adds s consumer services (m + m') (n + n') w w' where
  course := by
    obtain ⟨older, c, before⟩ := a.course
    obtain ⟨newer, c', after⟩ := a'.course
    exact ⟨newer ++ older, c.trans c', List.forall_mem_append.mpr ⟨after, before⟩⟩
  failures := by rw [a'.failures, a.failures, Nat.add_assoc]
  successes := by rw [a'.successes, a.successes, Nat.add_assoc]

theorem Mild.adds (mild : Mild w w') : Adds s consumer services 0 0 w w' := by
  obtain ⟨since, course, all⟩ := mild
  have count (p : Event → Bool) (none : ∀ e ∈ since, p e = false) :
      w'.history.countP p = w.history.countP p + 0 := by
    have zero : since.countP p = 0 := List.countP_eq_zero.mpr fun e he => by simp [none e he]
    rw [course.history, List.countP_append, zero, Nat.zero_add, Nat.add_zero]
  refine ⟨⟨since, course, fun e he => ⟨fun hfailed => ?_, fun own => .inr ((all e he).2 own)⟩⟩,
    count failed fun e he => (all e he).1.1, count succeeded fun e he => (all e he).1.2⟩
  rw [(all e he).1.1] at hfailed
  cases hfailed

theorem adds_success {ds : List Delivery}
    (reads : Own w (readOf s consumer services) (.ok ds) w') : Adds s consumer services 0 1 w w' := by
  obtain ⟨now, course⟩ := reads.course
  have fair : Fair s consumer services
      ⟨some self, ⟨w.hub, now, .call (readOf s consumer services), .ok ds, w'.hub⟩⟩ :=
    ⟨nofun, fun _ => .inl rfl⟩
  refine ⟨⟨_, course, List.forall_mem_singleton.mpr fair⟩, ?_, ?_⟩
  · rw [course.history]
    rfl
  · rw [course.history]
    exact List.countP_cons_of_pos rfl

theorem adds_failure {q : String}
    (reads : Own w (readOf s consumer services) (.error (.missingQueue q)) w')
    (mem : q ∈ services) (lacks : w.hub.carries q s.config.group = false) (same : w'.hub = w.hub) :
    Adds s consumer services 1 0 w w' := by
  obtain ⟨now, course⟩ := reads.course
  have fair : Fair s consumer services
      ⟨some self, ⟨w.hub, now, .call (readOf s consumer services), .error (.missingQueue q), w'.hub⟩⟩ :=
    ⟨fun _ => ⟨q, mem, rfl, lacks, same⟩, fun _ => .inr (same ▸ .refl w'.hub)⟩
  refine ⟨⟨_, course, List.forall_mem_singleton.mpr fair⟩, ?_, ?_⟩
  · rw [course.history]
    exact List.countP_cons_of_pos rfl
  · rw [course.history]
    rfl

theorem Adds.kept {m n : Nat} (adds : Adds s consumer services m n w w') {q g : String}
    (here : w.hub.carries q g = true) : w'.hub.carries q g = true := by
  obtain ⟨since, course, -⟩ := adds.course
  exact course.carries here

theorem Went.adds (went : Went s consumer services w w') :
    ∃ m n, m + n = 1 ∧ Adds s consumer services m n w w' ∧
      m + missing services s.config.group w'.hub ≤ missing services s.config.group w.hub := by
  cases went with
  | read turns reads delivers handled =>
    have adds := (turns.mild.adds.trans (adds_success reads)).trans handled.adds
    refine ⟨_, _, rfl, adds, ?_⟩
    rw [Nat.zero_add]
    exact missing_le services fun q => adds.kept
  | repaired turns reads named same provisioned repaired fewer =>
    have before : Adds s consumer services 0 0 w _ := turns.mild.adds
    have adds := (before.trans (adds_failure reads named.1 named.2 same)).trans provisioned.adds
    refine ⟨_, _, rfl, adds, ?_⟩
    have kept (q : String) (here : w.hub.carries q s.config.group = true) := before.kept here
    have le := missing_le services kept
    omega

structure Recovers (s : Shared) (b : BrokerId) (consumer : String) (services : List String)
    (stop : SignalId) (h₀ : Hub) (n : Nat) (w : World) : Prop where
  lived : Lived h₀ w
  fair : ∀ e ∈ w.history, Fair s consumer services e
  reads : n = w.history.countP failed + w.history.countP succeeded
  bounded : w.history.countP failed + missing services s.config.group w.hub ≤
    missing services s.config.group h₀
  unbroken : ∀ q g, h₀.carries q g = true → w.hub.carries q g = true
  /-- Only others, or a read that did not fail, take away what was there to be delivered. -/
  undelivered : ∀ q, ∀ e ∈ h₀.undelivered s.config.group q, e ∈ w.hub.undelivered s.config.group q ∨
    ∃ x ∈ w.history, (x.owner = none ∨ succeeded x = true) ∧
      e ∈ x.made.before.undelivered s.config.group q ∧ e ∉ x.made.after.undelivered s.config.group q
  next : ∀ r w', Runs Serving (Loop.round s (.dispatch b consumer services stop)) w r w' →
    r = some (.dispatch b consumer services stop) ∧ Went s consumer services w w'

theorem undelivered_or_taken {es : List Event} {h : Hub} (run : Hub.Run h₀ (es.map Event.made) h)
    (fair : ∀ e ∈ es, Fair s consumer services e) {g q : String} {e : Hub.Entry}
    (here : e ∈ h₀.undelivered g q) :
    e ∈ h.undelivered g q ∨ ∃ x ∈ es, (x.owner = none ∨ succeeded x = true) ∧
      e ∈ x.made.before.undelivered g q ∧ e ∉ x.made.after.undelivered g q := by
  induction es generalizing h with
  | nil =>
    cases run
    exact .inl here
  | cons x es ih =>
    obtain ⟨earlier, -, rfl⟩ := run.last
    rcases ih earlier fun y hy => fair y (List.mem_cons_of_mem x hy) with before | ⟨y, hy, taken⟩
    · by_cases after : e ∈ x.made.after.undelivered g q
      · exact .inl after
      · refine .inr ⟨x, List.mem_cons_self, ?_, before, after⟩
        by_cases own : x.owner = none
        · exact .inl own
        · rcases (fair x List.mem_cons_self).keeps own with read | keeps
          · exact .inr read
          · exact absurd ((keeps.undelivered g q).subset before) after
    · exact .inr ⟨y, List.mem_cons_of_mem x hy, taken⟩

theorem recovers {n : Nat}
    (rounds : Rounds s (.dispatch b consumer services stop) n ⟨h₀, []⟩ w) :
    Recovers s b consumer services stop h₀ n w := by
  have main : Lived h₀ w ∧ (∀ e ∈ w.history, Fair s consumer services e) ∧
      n = w.history.countP failed + w.history.countP succeeded ∧
      w.history.countP failed + missing services s.config.group w.hub ≤
        missing services s.config.group h₀ := by
    generalize hw : (⟨h₀, []⟩ : World) = w₀ at rounds
    induction rounds with
    | begin w₀ =>
      subst hw
      exact ⟨.refl _, List.forall_mem_nil _, rfl, Nat.le_of_eq (Nat.zero_add _)⟩
    | next _ run ih =>
      obtain ⟨lived, fair, reads, bounded⟩ := ih hw
      obtain ⟨-, round⟩ := went lived run
      obtain ⟨m, n', one, adds, fewer⟩ := round.adds
      obtain ⟨since, course, all⟩ := adds.course
      refine ⟨lived.since course, ?_, ?_, ?_⟩
      · rw [course.history]
        exact List.forall_mem_append.mpr ⟨all, fair⟩
      · rw [adds.failures, adds.successes]
        omega
      · rw [adds.failures]
        omega
  obtain ⟨lived, fair, reads, bounded⟩ := main
  exact ⟨lived, fair, reads, bounded, fun q g here => lived.carries here,
    fun q e here => undelivered_or_taken lived.run fair here, fun r w' => went lived⟩

/-- Nobody else had a turn, and no read of the loop went well. -/
def Alone (w w' : World) : Prop :=
  ∃ since, w'.history = since ++ w.history ∧ ∀ e ∈ since, e.owner = some self ∧ succeeded e = false

theorem Alone.refl (w : World) : Alone w w := ⟨[], rfl, List.forall_mem_nil _⟩

theorem Alone.trans (a : Alone w w₁) (a' : Alone w₁ w') : Alone w w' := by
  obtain ⟨older, hist, before⟩ := a
  obtain ⟨newer, hist', after⟩ := a'
  exact ⟨newer ++ older, by rw [hist', hist, List.append_assoc],
    List.forall_mem_append.mpr ⟨after, before⟩⟩

theorem Alone.successes (a : Alone w w') :
    w'.history.countP succeeded = w.history.countP succeeded := by
  obtain ⟨since, hist, all⟩ := a
  have zero : since.countP succeeded = 0 := List.countP_eq_zero.mpr fun e he => by simp [(all e he).2]
  rw [hist, List.countP_append, zero, Nat.zero_add]

theorem alone_of_own {c : Call} {r : Except Error c.Value} (own : Own w c r w')
    (unread : ∀ now, succeeded ⟨some self, ⟨w.hub, now, .call c, r, w'.hub⟩⟩ = false) : Alone w w' := by
  obtain ⟨now, deadline, h, served, rfl⟩ := own
  exact ⟨[_], rfl, List.forall_mem_singleton.mpr ⟨rfl, unread now⟩⟩

theorem exists_provisioned (lived : Lived h₀ w) (b : BrokerId) (q g : String) :
    ∃ w', Runs Serving (onBrokerAttempt b (ensureGroup q g)).run w (.ok ()) w' ∧ Alone w w' := by
  have asks : Asks (Provisioning.Provisions q g) (ensureGroup q g).run := Provisioning.asks_ensureGroup
  have answered : ∀ c, Provisioning.Provisions q g c → ∀ w, ∃ r w', Own w c r w' := fun c asked w => by
    obtain ⟨r, h, served, -⟩ := asked.served w.hub ⟨⟨0⟩, 0⟩ 0
    exact ⟨r, _, _, _, h, served, rfl⟩
  obtain ⟨r, w', run⟩ := asks.exists_runs answered w
  have alone : Alone w w' := run.relates Alone.refl (fun _ _ _ => Alone.trans)
    (fun w c r w' asked own => alone_of_own own fun now => ?_) asks
  · have served : Runs Serving
        ((ensureGroup q g).run.expand fun c => Node.ask (.broker b c)) w r w' := by
      refine Runs.expand_iff.mpr (Runs.map id (fun v c x v' own => ?_) run)
      exact Runs.request_iff.mpr ⟨v, .idle, own⟩
    obtain ⟨rfl, -⟩ := provisioned lived served
    exact ⟨w', served, alone⟩
  · exact (unread_of_call (Handles.not_read (.inl ⟨q, asked⟩))).2

theorem exists_round (lived : Lived h₀ w) (b : BrokerId) (consumer : String) (stop : SignalId)
    {q : String} (mem : q ∈ services) (lacks : w.hub.carries q s.config.group = false) :
    ∃ w', Runs Serving (Loop.round s (.dispatch b consumer services stop)) w
      (some (.dispatch b consumer services stop)) w' ∧ Alone w w' := by
  obtain ⟨q', first⟩ : ∃ q', services.find? (fun q => !w.hub.carries q s.config.group) = some q' :=
    Option.isSome_iff_exists.mp (List.find?_isSome.mpr ⟨q, mem, by simp [lacks]⟩)
  have served (now : Moment) : w.hub.serve now 0 (readOf s consumer services) =
      some (.error (.missingQueue q'), w.hub) := by
    simp only [readOf, Hub.serve, Hub.read, first]
  have own : Own w (readOf s consumer services) (.error (.missingQueue q')) _ :=
    ⟨⟨⟨0⟩, 0⟩, 0, w.hub, served _, rfl⟩
  obtain ⟨now, course⟩ := own.course
  obtain ⟨w', provisioning, alone⟩ := exists_provisioned (lived.since course) b q' s.config.group
  refine ⟨w', ?_, (alone_of_own own fun _ => rfl).trans alone⟩
  refine ⟨false, w, ⟨rfl, .idle⟩, .value _, _, ⟨w, _, .idle, own, rfl⟩, ?_⟩
  have handled : Runs Serving (handle s b stop (.error (.missingQueue q'))) _ true w' :=
    Runs.bind_iff.mpr ⟨_, w', provisioning, rfl, rfl⟩
  have rest : Runs Serving (handle s b stop (.error (.missingQueue q')) >>= fun go =>
      pure (if go then some (Loop.dispatch b consumer services stop) else none)) _
      (some (Loop.dispatch b consumer services stop)) w' :=
    Runs.bind_iff.mpr ⟨true, w', handled, rfl, rfl⟩
  exact rest

theorem all_carried {g : String} {h : Hub} (none : missing services g h = 0) :
    ∀ q ∈ services, h.carries q g = true := fun q hq => by
  simpa using List.countP_eq_zero.mp none q hq

theorem exists_rounds (s : Shared) (b : BrokerId) (consumer : String) (services : List String)
    (stop : SignalId) (h₀ : Hub) : ∃ n w, Rounds s (.dispatch b consumer services stop) n ⟨h₀, []⟩ w ∧
      Alone ⟨h₀, []⟩ w ∧ missing services s.config.group w.hub = 0 := by
  have reach (k n : Nat) (w : World)
      (rounds : Rounds s (.dispatch b consumer services stop) n ⟨h₀, []⟩ w) (alone : Alone ⟨h₀, []⟩ w)
      (left : missing services s.config.group w.hub ≤ k) :
      ∃ n w, Rounds s (.dispatch b consumer services stop) n ⟨h₀, []⟩ w ∧
        Alone ⟨h₀, []⟩ w ∧ missing services s.config.group w.hub = 0 := by
    induction k generalizing n w with
    | zero => exact ⟨n, w, rounds, alone, Nat.le_zero.mp left⟩
    | succ k ih =>
      by_cases none : missing services s.config.group w.hub = 0
      · exact ⟨n, w, rounds, alone, none⟩
      · obtain ⟨q, mem, lacks⟩ := List.countP_pos_iff.mp (Nat.pos_of_ne_zero none)
        have lived := (recovers rounds).lived
        obtain ⟨w', run, more⟩ := exists_round lived b consumer stop mem (by simpa using lacks)
        have rounds' := Rounds.next rounds run
        obtain ⟨failures, successes, one, adds, fewer⟩ := (went lived run).2.adds
        have no_success := adds.successes.symm.trans more.successes
        exact ih (n + 1) w' rounds' (alone.trans more) (by omega)
  exact reach _ 0 ⟨h₀, []⟩ (.begin _) (.refl _) (Nat.le_refl _)

theorem keeps_trans {h h₁ h' : Hub} (k : Keeps h h₁) (k' : Keeps h₁ h') : Keeps h h' :=
  ⟨fun q g c hc => k'.cursors q g c (k.cursors q g c hc), fun q => (k.entries q).trans (k'.entries q)⟩

theorem keeps_of_run {es : List Event} {h : Hub} (run : Hub.Run h₀ (es.map Event.made) h)
    (keeps : ∀ e ∈ es, Keeps e.made.before e.made.after) : Keeps h₀ h := by
  induction es generalizing h with
  | nil =>
    cases run
    exact .refl h₀
  | cons e es ih =>
    obtain ⟨earlier, -, rfl⟩ := run.last
    exact keeps_trans (ih earlier fun x hx => keeps x (List.mem_cons_of_mem e hx))
      (keeps e List.mem_cons_self)

structure Undisturbed (s : Shared) (consumer : String) (services : List String) (h₀ : Hub) (n : Nat)
    (w : World) : Prop where
  alone : ∀ e ∈ w.history, e.owner = some self ∧ succeeded e = false
  few : n ≤ missing services s.config.group h₀
  keeps : Keeps h₀ w.hub
  repaired : ∀ q ∈ services, w.hub.carries q s.config.group = true
  reads : ∀ now deadline r h, w.hub.serve now deadline (readOf s consumer services) = some (r, h) →
    ∃ ds, r = .ok ds ∧ ∀ q ∈ services,
      ((h₀.undelivered s.config.group q).take (max s.config.readCount 1)).map
        (Hub.Entry.delivery q) <+: ds.filter (·.queue = q)

theorem exists_undisturbed (s : Shared) (b : BrokerId) (consumer : String) (services : List String)
    (stop : SignalId) (h₀ : Hub) :
    ∃ n w, Rounds s (.dispatch b consumer services stop) n ⟨h₀, []⟩ w ∧
      Undisturbed s consumer services h₀ n w := by
  obtain ⟨n, w, rounds, alone, none⟩ := exists_rounds s b consumer services stop h₀
  have result := recovers rounds
  have successes := alone.successes
  obtain ⟨since, hist, own⟩ := alone
  obtain rfl : w.history = since := hist.trans (List.append_nil since)
  have carried := all_carried none
  have keeps : Keeps h₀ w.hub := keeps_of_run result.lived.run fun e he => by
    have fair := (result.fair e he).keeps
    rw [(own e he).1, (own e he).2] at fair
    exact (fair nofun).resolve_left nofun
  refine ⟨n, w, rounds, own, ?_, keeps, carried, fun now deadline r h served => ?_⟩
  · have counted := result.reads
    have bounded := result.bounded
    have zero : w.history.countP succeeded = 0 := successes
    omega
  · rcases Hub.serve_readGroup served with ⟨e, rfl, -⟩ | ⟨ds, taken, rfl⟩
    · obtain ⟨q, mem, -, lacks⟩ := served_error served
      rw [carried q mem] at lacks
      cases lacks
    · refine ⟨ds, rfl, fun q mem => ?_⟩
      have delivers := prefix_takeAll s.config.group (max s.config.readCount 1) w.hub mem
      rw [taken] at delivers
      obtain ⟨newer, hnewer⟩ := keeps.undelivered s.config.group q
      rw [← hnewer, List.take_append, List.map_append] at delivers
      exact (List.prefix_append _ _).trans delivers

structure GetsThrough (s : Shared) (b : BrokerId) (consumer : String) (services : List String)
    (stop : SignalId) (h₀ : Hub) : Prop where
  always : ∀ n w, Rounds s (.dispatch b consumer services stop) n ⟨h₀, []⟩ w →
    Recovers s b consumer services stop h₀ n w
  atMost : missing services s.config.group h₀ ≤ services.length
  undisturbed : ∃ n w, Rounds s (.dispatch b consumer services stop) n ⟨h₀, []⟩ w ∧
    Undisturbed s consumer services h₀ n w

theorem dispatch_recovers (s : Shared) (b : BrokerId) (consumer : String) (services : List String)
    (stop : SignalId) (h₀ : Hub) : GetsThrough s b consumer services stop h₀ where
  always _ _ := recovers
  atMost := List.countP_le_length
  undisturbed := exists_undisturbed s b consumer services stop h₀

end BrokeredCalls.Recovery
