import Mathlib.Data.List.Forall2
import BrokeredCalls.Node.Basic
import BrokeredCalls.Proofs.Runs

/-!
What a dispatch loop makes of a batch, whatever it is answered. Each queue of the batch is acknowledged
once, with the ids that were delivered of it; only then each entry is routed, in order and by its kind. A
failure is an answer like another, so what is done about the other entries does not depend on it.
-/

namespace BrokeredCalls.Batches

open List (Forall₂)
open Node (Execution Loop Shared)
open Node.Dispatch (acknowledgeAll handle idsByQueue route routeAll)
open Program (Runs)

/-- What was asked and answered, the newest first. -/
abbrev Record := Trace Node.interface

/-- Every request may be answered in any way, and is put on record. -/
def Recorded : Node.interface.Service Record := fun tr r a tr' => tr' = ⟨r, a⟩ :: tr

def idsOf (batch : List Delivery) (queue : String) : List String :=
  (batch.filter (·.queue = queue)).map (·.id)

section Grouping

theorem idsOf_cons (d : Delivery) (batch : List Delivery) (queue : String) :
    idsOf (d :: batch) queue =
      if d.queue = queue then d.id :: idsOf batch queue else idsOf batch queue := by
  unfold idsOf
  by_cases same : d.queue = queue <;> simp [same]

structure Grouped (batch : List Delivery) (groups : List (String × List String)) : Prop where
  distinct : (groups.map (·.1)).Nodup
  queues : ∀ q, q ∈ groups.map (·.1) ↔ ∃ d ∈ batch, d.queue = q
  ids : ∀ x ∈ groups, x.2 = idsOf batch x.1

theorem Grouped.cons_new {d : Delivery} {batch : List Delivery} {groups : List (String × List String)}
    (grouped : Grouped batch groups) (new : d.queue ∉ groups.map (·.1)) :
    Grouped (d :: batch) ((d.queue, [d.id]) :: groups) where
  distinct := List.nodup_cons.mpr ⟨new, grouped.distinct⟩
  queues q := by
    rw [List.map_cons, List.mem_cons, grouped.queues]
    simp [eq_comm]
  ids x hx := by
    rcases List.mem_cons.mp hx with rfl | hx
    · have none : idsOf batch d.queue = [] := by
        refine List.map_eq_nil_iff.mpr (List.filter_eq_nil_iff.mpr fun e he => ?_)
        simpa using fun same => new ((grouped.queues _).mpr ⟨e, he, same⟩)
      rw [idsOf_cons, if_pos rfl, none]
    · have other : d.queue ≠ x.1 := fun same => new (same ▸ List.mem_map_of_mem hx)
      rw [idsOf_cons, if_neg other, grouped.ids x hx]

theorem Grouped.cons_known {d : Delivery} {batch : List Delivery} {groups : List (String × List String)}
    {ids : List String} (grouped : Grouped batch groups) (known : (d.queue, ids) ∈ groups) :
    Grouped (d :: batch) ((d.queue, d.id :: ids) :: groups.filter fun x => x.1 ≠ d.queue) where
  distinct := by
    refine List.nodup_cons.mpr ⟨by simp, ?_⟩
    exact grouped.distinct.sublist (List.filter_sublist.map _)
  queues q := by
    have others : (groups.filter fun x => x.1 ≠ d.queue).map (·.1) =
        (groups.map (·.1)).filter (· ≠ d.queue) := by
      rw [List.filter_map]
      rfl
    rw [List.map_cons, List.mem_cons, others, List.mem_filter, grouped.queues,
      List.exists_mem_cons_iff]
    by_cases same : d.queue = q
    · simp [same]
    · simp [same, Ne.symm same]
  ids x hx := by
    rcases List.mem_cons.mp hx with rfl | hx
    · rw [idsOf_cons, if_pos rfl, ← grouped.ids _ known]
    · obtain ⟨hx, other⟩ := List.mem_filter.mp hx
      have other : x.1 ≠ d.queue := of_decide_eq_true other
      rw [idsOf_cons, if_neg other.symm, grouped.ids x hx]

theorem grouped_idsByQueue (batch : List Delivery) : Grouped batch (idsByQueue batch) := by
  induction batch with
  | nil => exact ⟨.nil, by simp [idsByQueue], nofun⟩
  | cons d batch ih =>
    unfold idsByQueue
    dsimp only
    cases found : (idsByQueue batch).find? fun e => e.1 = d.queue with
    | none =>
      refine ih.cons_new fun mem => ?_
      obtain ⟨x, hx, same⟩ := List.mem_map.mp mem
      simpa [same] using List.find?_eq_none.mp found x hx
    | some x =>
      obtain ⟨queue, ids⟩ := x
      obtain rfl : queue = d.queue := by simpa using List.find?_some found
      exact ih.cons_known (List.mem_of_find?_eq_some found)

example : (idsByQueue [⟨"s", "1", .placeholder "s"⟩, ⟨"t", "2", .placeholder "t"⟩,
    ⟨"s", "3", .placeholder "s"⟩]) = [("s", ["1", "3"]), ("t", ["2"])] := by decide

end Grouping

def Acknowledges (b : BrokerId) (g : String) (batch : List Delivery) (q : String)
    (x : Exchange Node.interface) : Prop :=
  ∃ a, x = ⟨.broker b (.acknowledge q g (idsOf batch q)), a⟩

/-- What is done about an entry by its kind: nothing about a placeholder; a call is started; a deferred
call is tracked once it is written, and a tombstone untracks and deletes. -/
def Routes (s : Shared) (b : BrokerId) (d : Delivery) (done : Record) : Prop :=
  match d.envelope.fireAt, d.envelope.payload with
  | none, [] => done = []
  | none, payload => done = [⟨.start
      { broker := b
        service := d.envelope.service
        payload := payload
        replyKey := Key.reply d.envelope.service d.id
        replyTtl := s.config.replyTtl }, ()⟩]
  | some t, [] => ∃ known a, done =
      [⟨.broker b (.hashDelete (Key.delay d.envelope.service) (Decimal.ofInt64 t)), a⟩,
        ⟨.pending (.erase ⟨t, d.envelope.service⟩), known⟩]
  | some t, payload =>
    (∃ new, done = [⟨.pending (.insert ⟨t, d.envelope.service⟩), new⟩,
      ⟨.broker b (.hashSet (Key.delay d.envelope.service) (Decimal.ofInt64 t) payload), .ok ()⟩]) ∨
    ∃ e, done =
      [⟨.broker b (.hashSet (Key.delay d.envelope.service) (Decimal.ofInt64 t) payload), .error e⟩]

section Handling

variable {s : Shared} {b : BrokerId} {g : String} {stop : SignalId} {u : Unit} {tr tr' : Record}

theorem acknowledgeAll_runs {groups : List (String × List String)} :
    Runs Recorded (acknowledgeAll b g groups) tr u tr' ↔
      ∃ acks, Forall₂ (fun x y => ∃ a, y = ⟨.broker b (.acknowledge x.1 g x.2), a⟩) groups acks ∧
        tr' = acks.reverse ++ tr := by
  induction groups generalizing tr with
  | nil =>
    constructor
    · rintro ⟨-, rfl⟩
      exact ⟨[], .nil, rfl⟩
    · rintro ⟨acks, none, rfl⟩
      cases none
      exact ⟨rfl, rfl⟩
  | cons x groups ih =>
    obtain ⟨queue, ids⟩ := x
    constructor
    · rintro ⟨a, _, rfl, rest⟩
      obtain ⟨acks, all, rfl⟩ := ih.mp rest
      refine ⟨_ :: acks, .cons ⟨a, rfl⟩ all, ?_⟩
      rw [List.reverse_cons, List.append_assoc]
      rfl
    · rintro ⟨_, all, rfl⟩
      cases all with
      | cons first all =>
        obtain ⟨a, rfl⟩ := first
        refine ⟨a, _, rfl, ih.mpr ⟨_, all, ?_⟩⟩
        rw [List.reverse_cons, List.append_assoc]
        rfl

theorem route_runs {d : Delivery} :
    Runs Recorded (route s b d) tr u tr' ↔ ∃ done, Routes s b d done ∧ tr' = done ++ tr := by
  obtain ⟨queue, id, service, payload, fireAt, entryId⟩ := d
  cases fireAt with
  | none =>
    cases payload with
    | nil =>
      constructor
      · rintro ⟨-, rfl⟩
        exact ⟨[], rfl, rfl⟩
      · rintro ⟨_, rfl, rfl⟩
        exact ⟨rfl, rfl⟩
    | cons x xs =>
      constructor
      · rintro ⟨_, _, rfl, -, rfl⟩
        exact ⟨_, rfl, rfl⟩
      · rintro ⟨_, rfl, rfl⟩
        exact ⟨(), _, rfl, rfl, rfl⟩
  | some t =>
    cases payload with
    | nil =>
      constructor
      · rintro ⟨known, _, rfl, a, _, rfl, -, rfl⟩
        exact ⟨_, ⟨known, a, rfl⟩, rfl⟩
      · rintro ⟨_, ⟨known, a, rfl⟩, rfl⟩
        exact ⟨known, _, rfl, a, _, rfl, rfl, rfl⟩
    | cons x xs =>
      constructor
      · rintro ⟨a, _, rfl, rest⟩
        cases a with
        | ok written =>
          obtain ⟨new, _, rfl, -, rfl⟩ := rest
          exact ⟨_, .inl ⟨new, rfl⟩, rfl⟩
        | error e =>
          obtain ⟨-, rfl⟩ := rest
          exact ⟨_, .inr ⟨e, rfl⟩, rfl⟩
      · rintro ⟨_, ⟨new, rfl⟩ | ⟨e, rfl⟩, rfl⟩
        · exact ⟨.ok (), _, rfl, new, _, rfl, rfl, rfl⟩
        · exact ⟨.error e, _, rfl, rfl, rfl⟩

theorem routeAll_runs {batch : List Delivery} :
    Runs Recorded (routeAll s b batch) tr u tr' ↔
      ∃ pieces, Forall₂ (Routes s b) batch pieces ∧ tr' = pieces.reverse.flatten ++ tr := by
  induction batch generalizing tr with
  | nil =>
    constructor
    · rintro ⟨-, rfl⟩
      exact ⟨[], .nil, rfl⟩
    · rintro ⟨pieces, none, rfl⟩
      cases none
      exact ⟨rfl, rfl⟩
  | cons d batch ih =>
    have snoc (first : Record) (pieces : List Record) :
        (first :: pieces).reverse.flatten ++ tr = pieces.reverse.flatten ++ (first ++ tr) := by
      simp [List.append_assoc]
    refine Runs.bind_iff.trans ⟨?_, ?_⟩
    · rintro ⟨_, tr₁, first, rest⟩
      obtain ⟨done, routes, rfl⟩ := route_runs.mp first
      obtain ⟨pieces, all, rfl⟩ := ih.mp rest
      exact ⟨done :: pieces, .cons routes all, (snoc done pieces).symm⟩
    · rintro ⟨_, all, rfl⟩
      cases all with
      | cons routes all =>
        exact ⟨(), _, route_runs.mpr ⟨_, routes, rfl⟩, ih.mpr ⟨_, all, snoc _ _⟩⟩

/-- All that is asked about a batch: first the queues are acknowledged, each once, then the entries are
routed, each in its turn. -/
def Dealt (s : Shared) (b : BrokerId) (batch : List Delivery) (queues : List String) (done : Record) :
    Prop :=
  ∃ acks pieces, Forall₂ (Acknowledges b s.config.group batch) queues acks ∧
    Forall₂ (Routes s b) batch pieces ∧ done = pieces.reverse.flatten ++ acks.reverse

theorem Grouped.forall₂_iff {batch : List Delivery} {groups : List (String × List String)}
    (grouped : Grouped batch groups) {acks : Record} :
    Forall₂ (fun x y => ∃ a, y = ⟨.broker b (.acknowledge x.1 g x.2), a⟩) groups acks ↔
      Forall₂ (Acknowledges b g batch) (groups.map (·.1)) acks := by
  have whole : groups = (groups.map (·.1)).map fun q => (q, idsOf batch q) := by
    rw [List.map_map]
    refine ((List.map_congr_left fun x hx => ?_).trans (List.map_id groups)).symm
    exact Prod.ext rfl (grouped.ids x hx).symm
  conv_lhs => rw [whole]
  exact List.forall₂_map_left_iff

theorem handle_runs {batch : List Delivery} {go : Bool} :
    Runs Recorded (handle s b stop (.ok batch)) tr go tr' ↔
      go = true ∧ ∃ done, Dealt s b batch ((idsByQueue batch).map (·.1)) done ∧ tr' = done ++ tr := by
  have grouped := grouped_idsByQueue batch
  constructor
  · intro run
    obtain ⟨_, _, acknowledged, run⟩ := Runs.bind_iff.mp run
    obtain ⟨_, _, routed, rfl, rfl⟩ := Runs.bind_iff.mp run
    obtain ⟨acks, all, rfl⟩ := acknowledgeAll_runs.mp acknowledged
    obtain ⟨pieces, routes, rfl⟩ := routeAll_runs.mp routed
    refine ⟨rfl, _, ⟨acks, pieces, grouped.forall₂_iff.mp all, routes, rfl⟩, ?_⟩
    rw [List.append_assoc]
  · rintro ⟨rfl, _, ⟨acks, pieces, all, routes, rfl⟩, rfl⟩
    refine Runs.bind_iff.mpr ⟨(), _, acknowledgeAll_runs.mpr ⟨acks, grouped.forall₂_iff.mpr all, rfl⟩, ?_⟩
    refine Runs.bind_iff.mpr ⟨(), _, routeAll_runs.mpr ⟨pieces, routes, rfl⟩, rfl, ?_⟩
    rw [List.append_assoc]

theorem suffix_of_runs {α : Type} {p : Node.Routine α} {a : α} (run : Runs Recorded p tr a tr') :
    tr <:+ tr' := by
  induction p generalizing tr with
  | done x =>
    obtain ⟨-, rfl⟩ := run
    exact List.suffix_refl _
  | ask r next ih =>
    obtain ⟨x, _, rfl, rest⟩ := run
    exact (List.suffix_cons _ _).trans (ih x rest)

end Handling

def given (s : Shared) (b : BrokerId) (consumer : String) (services : List String) (stop : SignalId)
    (batch : List Delivery) : Record :=
  [⟨.readUnlessStopped b s.config.group consumer services s.config.readCount s.config.readBlock stop,
      .value (.ok batch)⟩,
    ⟨.isRaised stop, false⟩]

theorem round_runs {s : Shared} {b : BrokerId} {consumer : String} {services : List String}
    {stop : SignalId} {batch : List Delivery} {again : Option Loop} {done : Record} :
    Runs Recorded (Loop.round s (.dispatch b consumer services stop)) [] again
        (done ++ given s b consumer services stop batch) ↔
      again = some (.dispatch b consumer services stop) ∧
        Dealt s b batch ((idsByQueue batch).map (·.1)) done := by
  constructor
  · rintro ⟨raised, _, rfl, run⟩
    cases raised with
    | true =>
      obtain ⟨-, heq⟩ := run
      have two := congrArg List.length heq
      simp [given] at two
    | false =>
      obtain ⟨ended, _, rfl, run⟩ := run
      obtain ⟨newer, split⟩ := suffix_of_runs run
      obtain ⟨-, read⟩ := List.append_inj' split rfl
      cases (List.cons.inj read).1
      have run : Runs Recorded (handle s b stop (.ok batch) >>= fun go =>
        pure (if go then some (Loop.dispatch b consumer services stop) else none))
          (given s b consumer services stop batch) again _ := run
      obtain ⟨go, _, handled, rest⟩ := Runs.bind_iff.mp run
      obtain ⟨rfl, made, dealt, rfl⟩ := handle_runs.mp handled
      obtain ⟨rfl, same⟩ := rest
      obtain ⟨rfl, -⟩ := List.append_inj' same rfl
      exact ⟨rfl, dealt⟩
  · rintro ⟨rfl, dealt⟩
    refine ⟨false, _, rfl, .value (.ok batch), _, rfl, ?_⟩
    show Runs Recorded (handle s b stop (.ok batch) >>= fun go =>
      pure (if go then some (Loop.dispatch b consumer services stop) else none))
        (given s b consumer services stop batch) _ _
    exact Runs.bind_iff.mpr ⟨true, _, handle_runs.mpr ⟨rfl, done, dealt, rfl⟩, rfl, rfl⟩

def Executes (service : String) (payload : Bytes) (reply : Reply) (done : Record) : Prop :=
  ∃ found : Option Route, match found.bind (·.handler) with
    | some h => ∃ result, reply = .ofResult result ∧
      done = [⟨.invoke service h payload, result⟩, ⟨.resolve service, found⟩]
    | none => reply = .error (Error.serviceNotFound service).message ∧
      done = [⟨.resolve service, found⟩]

theorem execute_runs {service : String} {payload : Bytes} {reply : Reply} {tr : Record} :
    Runs Recorded (Node.execute service payload) [] reply tr ↔
      Executes service payload reply tr := by
  have rest (found : Option Route) :
      Runs Recorded (match found.bind (·.handler) with
        | some h => Node.ask (.invoke service h payload) >>= fun result => pure (.ofResult result)
        | none => pure (.error (Error.serviceNotFound service).message)) [⟨.resolve service, found⟩]
          reply tr ↔
        match found.bind (·.handler) with
        | some h => ∃ result, reply = .ofResult result ∧
          tr = [⟨.invoke service h payload, result⟩, ⟨.resolve service, found⟩]
        | none => reply = .error (Error.serviceNotFound service).message ∧
          tr = [⟨.resolve service, found⟩] := by
    cases found.bind (·.handler) with
    | none => rfl
    | some h =>
      constructor
      · rintro ⟨result, _, rfl, rfl, rfl⟩
        exact ⟨result, rfl, rfl⟩
      · rintro ⟨result, rfl, rfl⟩
        exact ⟨result, _, rfl, rfl, rfl⟩
  constructor
  · rintro ⟨found, _, rfl, run⟩
    exact ⟨found, (rest found).mp run⟩
  · rintro ⟨found, executes⟩
    exact ⟨found, _, rfl, (rest found).mpr executes⟩

theorem routine_runs {e : Execution} {u : Unit} {tr : Record} :
    Runs Recorded e.routine [] u tr ↔ ∃ reply done a, Executes e.service e.payload reply done ∧
      tr = ⟨.broker e.broker (.pushReply e.replyKey reply.encode e.replyTtl), a⟩ :: done := by
  refine Runs.bind_iff.trans ⟨?_, ?_⟩
  · rintro ⟨reply, done, ran, a, _, rfl, -, rfl⟩
    exact ⟨reply, done, a, execute_runs.mp ran, rfl⟩
  · rintro ⟨reply, done, a, executes, rfl⟩
    exact ⟨reply, done, execute_runs.mpr executes, a, _, rfl, rfl, rfl⟩

structure Dispatched (s : Shared) (b : BrokerId) (consumer : String) (services : List String)
    (stop : SignalId) (batch : List Delivery) : Prop where
  round : ∃ queues : List String, queues.Nodup ∧ (∀ q, q ∈ queues ↔ ∃ d ∈ batch, d.queue = q) ∧
    ∀ again done, Runs Recorded (Loop.round s (.dispatch b consumer services stop)) [] again
        (done ++ given s b consumer services stop batch) ↔
      again = some (.dispatch b consumer services stop) ∧ Dealt s b batch queues done
  executions : ∀ (e : Execution) (u : Unit) (tr : Record), Runs Recorded e.routine [] u tr ↔
    ∃ reply done a, Executes e.service e.payload reply done ∧
      tr = ⟨.broker e.broker (.pushReply e.replyKey reply.encode e.replyTtl), a⟩ :: done

/-- A batch is acknowledged once for each of its queues, then each of its entries is routed once. -/
theorem batch_dispatched (s : Shared) (b : BrokerId) (consumer : String) (services : List String)
    (stop : SignalId) (batch : List Delivery) : Dispatched s b consumer services stop batch where
  round := ⟨_, (grouped_idsByQueue batch).distinct, (grouped_idsByQueue batch).queues,
    fun _ _ => round_runs⟩
  executions _ _ _ := routine_runs

end BrokeredCalls.Batches
