import BrokeredCalls.Node.Basic
import BrokeredCalls.Proofs.Redis.Naming

/-!
A dispatch loop alone with its server while queues are missing. Each of its reads fails, the queue named
in the failure is provisioned, and the next read comes without a pause. Queues without a quote in their
names are repaired one a round. A queue with a quote in its name never is: the loop provisions another,
whose name is the part before the quote, again and again.
-/

namespace BrokeredCalls.Redis

open Broker (ensureGroup)
open Node (Loop Shared onBroker onBrokerAttempt)
open Node.Dispatch (handle)
open Program (Runs)

structure Worker where
  client : Client
  pauses : Nat

def Working : Node.interface.Service Worker
  | w, .broker _ c, r, w' => Calling w.client c r w'.client ∧ w'.pauses = w.pauses
  | w, .readUnlessStopped _ group consumer services count block _, ended, w' =>
    ∃ r, ended = .value r ∧ Calling w.client (.readGroup group consumer services count block) r w'.client ∧
      w'.pauses = w.pauses
  | w, .isRaised _, raised, w' => raised = false ∧ w' = w
  | w, .pauseUnlessStopped .., ended, w' => ended = .value () ∧ w' = ⟨w.client, w.pauses + 1⟩
  | w, _, _, w' => w' = w

variable {s : Shared} {b : BrokerId} {consumer : String} {services : List String} {stop : SignalId}
  {w w₁ w' : Worker} {group : String}

theorem onBroker_runs {α : Type} {p : Program Broker.interface α} {a : α} :
    Runs Working (onBroker b p) w a w' ↔
      Runs Calling p w.client a w'.client ∧ w'.pauses = w.pauses := by
  induction p generalizing w with
  | done x =>
    constructor
    · rintro ⟨rfl, rfl⟩
      exact ⟨⟨rfl, rfl⟩, rfl⟩
    · rintro ⟨⟨rfl, same⟩, unpaused⟩
      obtain ⟨client, pauses⟩ := w
      obtain ⟨client', pauses'⟩ := w'
      obtain rfl : client' = client := same
      obtain rfl : pauses' = pauses := unpaused
      exact ⟨rfl, rfl⟩
  | ask c next ih =>
    constructor
    · rintro ⟨x, w₁, ⟨served, unpaused⟩, rest⟩
      obtain ⟨rest, more⟩ := (ih x).mp rest
      exact ⟨⟨x, w₁.client, served, rest⟩, more.trans unpaused⟩
    · rintro ⟨⟨x, client, served, rest⟩, unpaused⟩
      exact ⟨x, ⟨client, w.pauses⟩, ⟨served, rfl⟩, (ih x).mpr ⟨rest, unpaused⟩⟩

/-- The loop goes on at once, and has provisioned the queue of this name and done nothing else. -/
structure Repairs (group name : String) (w w' : Worker) : Prop where
  unpaused : w'.pauses = w.pauses
  session : ∃ c, w'.client.session = w.client.session.reads c
  grouped : ∃ st, Grouped group (w.client.streams name) st ∧
    w'.client.streams = w.client.streams.put name st

theorem handle_runs {session : Session} {streams : Streams} {pauses : Nat} {name : String} {go : Bool}
    (isOpen : session.closed = false) :
    Runs Working (handle s b stop (.error (.missingQueue name))) ⟨⟨session, streams⟩, pauses⟩ go w' ↔
      go = true ∧ w'.pauses = pauses ∧ w'.client.session = session ∧
        ∃ st, Grouped s.config.group (streams name) st ∧ w'.client.streams = streams.put name st := by
  have provisions (r : Except Error Unit) (w₁ : Worker) :
      Runs Working (onBrokerAttempt b (ensureGroup name s.config.group)).run
          ⟨⟨session, streams⟩, pauses⟩ r w₁ ↔
        (r = .ok () ∧ w₁.client.session = session ∧
          ∃ st, Grouped s.config.group (streams name) st ∧ w₁.client.streams = streams.put name st) ∧
            w₁.pauses = pauses :=
    onBroker_runs.trans (and_congr_left fun _ => ensureGroup_runs isOpen)
  refine Runs.bind_iff.trans ⟨?_, ?_⟩
  · rintro ⟨r, w₁, provisioned, rest⟩
    obtain ⟨⟨rfl, session, grouped⟩, unpaused⟩ := (provisions r w₁).mp provisioned
    obtain ⟨rfl, rfl⟩ := rest
    exact ⟨rfl, unpaused, session, grouped⟩
  · rintro ⟨rfl, unpaused, session, grouped⟩
    exact ⟨.ok (), w', (provisions _ _).mpr ⟨⟨rfl, session, grouped⟩, unpaused⟩, rfl, rfl⟩

def Lacks (services : List String) (group : String) (w : Worker) : Prop :=
  ∃ q ∈ services, w.client.streams.carries q group = false

theorem round_runs (isOpen : w.client.session.closed = false)
    (lacks : Lacks services s.config.group w) {r : Option Loop} :
    Runs Working (Loop.round s (.dispatch b consumer services stop)) w r w' ↔
      r = some (.dispatch b consumer services stop) ∧
        ∃ q ∈ services, w.client.streams.carries q s.config.group = false ∧
          Repairs s.config.group (beforeQuote q) w w' := by
  have still (c : Connection) : (w.client.session.reads c).closed = false := isOpen
  constructor
  · rintro ⟨_, _, ⟨rfl, rfl⟩, _, ⟨⟨session, streams⟩, pauses⟩, ⟨result, rfl, read, rfl⟩, rest⟩
    obtain ⟨⟨c, rfl⟩, rfl, q, mem, lacking, rfl⟩ := (readGroup_runs lacks isOpen).mp read
    have rest : Runs Working (handle s b stop (.error (.missingQueue (beforeQuote q))) >>= fun go =>
      pure (if go then some (Loop.dispatch b consumer services stop) else none)) _ r w' := rest
    obtain ⟨go, w₁, handled, rest⟩ := Runs.bind_iff.mp rest
    obtain ⟨rfl, unpaused, session, grouped⟩ := (handle_runs (still c)).mp handled
    obtain ⟨rfl, rfl⟩ := rest
    exact ⟨rfl, q, mem, lacking, unpaused, ⟨c, session⟩, grouped⟩
  · rintro ⟨rfl, q, mem, lacking, unpaused, ⟨c, session⟩, grouped⟩
    have read : Calling w.client (.readGroup s.config.group consumer services s.config.readCount
        s.config.readBlock) (.error (.missingQueue (beforeQuote q)))
        ⟨w.client.session.reads c, w.client.streams⟩ :=
      (readGroup_runs lacks isOpen).mpr ⟨⟨c, rfl⟩, rfl, q, mem, lacking, rfl⟩
    refine ⟨false, w, ⟨rfl, rfl⟩, .value _, ⟨⟨_, _⟩, w.pauses⟩, ⟨_, rfl, read, rfl⟩, ?_⟩
    show Runs Working (handle s b stop (.error (.missingQueue (beforeQuote q))) >>= fun go =>
      pure (if go then some (Loop.dispatch b consumer services stop) else none)) _ _ w'
    refine Runs.bind_iff.mpr ⟨true, w', (handle_runs (still c)).mpr ?_, rfl, rfl⟩
    exact ⟨rfl, unpaused, session, grouped⟩

theorem Grouped.joins {before : Option Stream} {st : Stream} (grouped : Grouped group before st) :
    group ∈ st.groups ∧ ∀ old, before = some old → old.groups ⊆ st.groups := by
  have joined (st : Stream) : group ∈ (st.join group).groups ∧ st.groups ⊆ (st.join group).groups := by
    unfold Stream.join
    split
    · next mem => exact ⟨by simpa using mem, List.Subset.refl _⟩
    · exact ⟨List.mem_cons_self, List.subset_cons_self _ _⟩
  cases grouped with
  | joined st =>
    refine ⟨(joined st).1, fun old same => ?_⟩
    cases same
    exact (joined st).2
  | placed id => exact ⟨(joined _).1, nofun⟩

namespace Repairs

variable {name : String} (repairs : Repairs group name w w')
include repairs

theorem isOpen (h : w.client.session.closed = false) : w'.client.session.closed = false := by
  obtain ⟨c, session⟩ := repairs.session
  rw [session]
  exact h

theorem repaired : w'.client.streams.carries name group = true := by
  obtain ⟨st, grouped, after⟩ := repairs.grouped
  rw [after, Streams.carries_iff]
  exact ⟨st, Streams.put_same .., grouped.joins.1⟩

theorem others {k : String} (h : k ≠ name) : w'.client.streams k = w.client.streams k := by
  obtain ⟨st, -, after⟩ := repairs.grouped
  rw [after, Streams.put_other _ _ h]

theorem kept {k g : String} (here : w.client.streams.carries k g = true) :
    w'.client.streams.carries k g = true := by
  obtain ⟨old, there, mem⟩ := Streams.carries_iff.mp here
  rw [Streams.carries_iff]
  by_cases h : k = name
  · subst h
    obtain ⟨st, grouped, after⟩ := repairs.grouped
    exact ⟨st, by rw [after, Streams.put_same], grouped.joins.2 old there mem⟩
  · exact ⟨old, (repairs.others h).trans there, mem⟩

end Repairs

inductive Retries (s : Shared) (b : BrokerId) (consumer : String) (services : List String)
    (stop : SignalId) : Nat → Worker → Worker → Prop
  | start (w : Worker) : Retries s b consumer services stop 0 w w
  | again {n : Nat} {w w₁ w' : Worker} (earlier : Retries s b consumer services stop n w w₁)
    (lacks : Lacks services s.config.group w₁)
    (run : Runs Working (Loop.round s (.dispatch b consumer services stop)) w₁
      (some (.dispatch b consumer services stop)) w') : Retries s b consumer services stop (n + 1) w w'

def missing (services : List String) (group : String) (w : Worker) : Nat :=
  services.countP fun q => !w.client.streams.carries q group

theorem lacks_iff : Lacks services group w ↔ missing services group w ≠ 0 := by
  unfold Lacks missing
  rw [← Nat.pos_iff_ne_zero, List.countP_pos_iff]
  simp

structure Retried (services : List String) (group : String) (n : Nat) (w w' : Worker) : Prop where
  isOpen : w'.client.session.closed = false
  unpaused : w'.pauses = w.pauses
  /-- Nothing is touched but what stands before the first quote of a name. -/
  others : ∀ k, (∀ q ∈ services, k ≠ beforeQuote q) → w'.client.streams k = w.client.streams k
  kept : ∀ k g, w.client.streams.carries k g = true → w'.client.streams.carries k g = true
  fewer : (∀ q ∈ services, '\'' ∉ q.toList) →
    n + missing services group w' ≤ missing services group w

theorem Retries.retried {n : Nat} (retries : Retries s b consumer services stop n w w')
    (isOpen : w.client.session.closed = false) : Retried services s.config.group n w w' := by
  induction retries with
  | start w => exact ⟨isOpen, rfl, fun _ _ => rfl, fun _ _ h => h, fun _ => (Nat.zero_add _).le⟩
  | @again n w w₁ w' _ lacks run ih =>
    have before := ih isOpen
    obtain ⟨-, q, mem, lacking, repairs⟩ := (round_runs before.isOpen lacks).mp run
    refine ⟨repairs.isOpen before.isOpen, repairs.unpaused.trans before.unpaused, fun k apart => ?_,
      fun k g here => repairs.kept (before.kept k g here), fun free => ?_⟩
    · exact (repairs.others (apart q mem)).trans (before.others k apart)
    · have whole : beforeQuote q = q := beforeQuote_eq_iff.mpr (free q mem)
      have less : missing services s.config.group w' < missing services s.config.group w₁ :=
        Provisioning.countP_not_lt (fun _ => repairs.kept) mem lacking (whole ▸ repairs.repaired)
      have bounded := before.fewer free
      omega

theorem exists_grouped (group : String) (before : Option Stream) : ∃ st, Grouped group before st := by
  cases before with
  | none => exact ⟨_, .placed "0-1"⟩
  | some st => exact ⟨_, .joined st⟩

theorem exists_round (s : Shared) (b : BrokerId) (consumer : String) (stop : SignalId)
    (isOpen : w.client.session.closed = false) (lacks : Lacks services s.config.group w) :
    ∃ w', Runs Working (Loop.round s (.dispatch b consumer services stop)) w
      (some (.dispatch b consumer services stop)) w' := by
  obtain ⟨q, mem, lacking⟩ := lacks
  obtain ⟨st, grouped⟩ := exists_grouped s.config.group (w.client.streams (beforeQuote q))
  have repairs : Repairs s.config.group (beforeQuote q) w
      ⟨⟨w.client.session.reads 0, w.client.streams.put (beforeQuote q) st⟩, w.pauses⟩ :=
    ⟨rfl, ⟨0, rfl⟩, st, grouped, rfl⟩
  exact ⟨_, (round_runs isOpen ⟨q, mem, lacking⟩).mpr ⟨rfl, q, mem, lacking, repairs⟩⟩

theorem exists_recovered (s : Shared) (b : BrokerId) (consumer : String) (stop : SignalId)
    (isOpen : w.client.session.closed = false) (free : ∀ q ∈ services, '\'' ∉ q.toList) :
    ∃ n w', Retries s b consumer services stop n w w' ∧ n ≤ missing services s.config.group w ∧
      ¬ Lacks services s.config.group w' := by
  have reach (k n : Nat) (w' : Worker) (retries : Retries s b consumer services stop n w w')
      (left : missing services s.config.group w' ≤ k) :
      ∃ n w', Retries s b consumer services stop n w w' ∧ missing services s.config.group w' = 0 := by
    induction k generalizing n w' with
    | zero => exact ⟨n, w', retries, Nat.le_zero.mp left⟩
    | succ k ih =>
      by_cases none : missing services s.config.group w' = 0
      · exact ⟨n, w', retries, none⟩
      · have lacks := lacks_iff.mpr none
        have stillOpen := (retries.retried isOpen).isOpen
        obtain ⟨w'', run⟩ := exists_round s b consumer stop stillOpen lacks
        have one : Retries s b consumer services stop 1 w' w'' := .again (.start w') lacks run
        have fewer := (one.retried stillOpen).fewer free
        exact ih (n + 1) w'' (.again retries lacks run) (by omega)
  obtain ⟨n, w', retries, none⟩ := reach _ 0 w (.start w) (Nat.le_refl _)
  have bounded := (retries.retried isOpen).fewer free
  exact ⟨n, w', retries, by omega, fun lacks => lacks_iff.mp lacks none⟩

theorem Retried.stuck {n : Nat} (retried : Retried services group n w w') {q : String}
    (quoted : '\'' ∈ q.toList) : w'.client.streams q = w.client.streams q := by
  refine retried.others q fun k _ same => ?_
  rw [same] at quoted
  exact quote_not_mem_beforeQuote k quoted

theorem exists_stuck (s : Shared) (b : BrokerId) (consumer : String) (stop : SignalId)
    (isOpen : w.client.session.closed = false) {q : String} (mem : q ∈ services)
    (quoted : '\'' ∈ q.toList) (lacking : w.client.streams.carries q s.config.group = false) (n : Nat) :
    ∃ w', Retries s b consumer services stop n w w' := by
  induction n with
  | zero => exact ⟨w, .start w⟩
  | succ n ih =>
    obtain ⟨w₁, retries⟩ := ih
    have retried := retries.retried isOpen
    have lacks : Lacks services s.config.group w₁ := by
      refine ⟨q, mem, ?_⟩
      rw [Streams.carries, retried.stuck quoted]
      exact lacking
    obtain ⟨w', run⟩ := exists_round s b consumer stop retried.isOpen lacks
    exact ⟨w', .again retries lacks run⟩

structure Named (q g : String) : Prop where
  missing : Session.missingQueue? (.server (Answer.noGroup q g)) = some (beforeQuote q)
  exact_iff : Session.missingQueue? (.server (Answer.noGroup q g)) = some q ↔ '\'' ∉ q.toList
  read : ∀ s : Session, s.closed = false → ∀ c group consumer queues count block,
    ((Session.serve (.readGroup group consumer queues count block)).run s).run
      (answering c (.error (Answer.noGroup q g))) = (.error (.missingQueue (beforeQuote q)), s.reads c)

theorem named (q g : String) : Named q g where
  missing := missingQueue?_noGroup q g
  exact_iff := by rw [missingQueue?_noGroup, Option.some.injEq, beforeQuote_eq_iff]
  read _ isOpen c group consumer queues count block :=
    readGroup_missing (missingQueue?_noGroup q g) isOpen c group consumer queues count block

structure Recovering (s : Shared) (b : BrokerId) (consumer : String) (services : List String)
    (stop : SignalId) (w : Worker) : Prop where
  round : ∀ n w₁ r w', Retries s b consumer services stop n w w₁ → Lacks services s.config.group w₁ →
    (Runs Working (Loop.round s (.dispatch b consumer services stop)) w₁ r w' ↔
      r = some (.dispatch b consumer services stop) ∧
        ∃ q ∈ services, w₁.client.streams.carries q s.config.group = false ∧
          Repairs s.config.group (beforeQuote q) w₁ w')
  rounds : ∀ n w', Retries s b consumer services stop n w w' →
    Retried services s.config.group n w w'
  recovers : (∀ q ∈ services, '\'' ∉ q.toList) → ∃ n w', Retries s b consumer services stop n w w' ∧
    n ≤ missing services s.config.group w ∧ ¬ Lacks services s.config.group w'
  stuck : ∀ q ∈ services, '\'' ∈ q.toList → w.client.streams.carries q s.config.group = false →
    (∀ n, ∃ w', Retries s b consumer services stop n w w') ∧
      ∀ n w', Retries s b consumer services stop n w w' → w'.pauses = w.pauses ∧
        w'.client.streams q = w.client.streams q

/-- A missing queue is named, and repaired, if and only if there is no quote in its name. -/
theorem missing_queue_named (s : Shared) (b : BrokerId) (consumer : String) (services : List String)
    (stop : SignalId) (isOpen : w.client.session.closed = false) :
    (∀ q g, Named q g) ∧ Recovering s b consumer services stop w where
  left := named
  right := {
    round := fun _ _ _ _ retries lacks => round_runs (retries.retried isOpen).isOpen lacks
    rounds := fun _ _ retries => retries.retried isOpen
    recovers := exists_recovered s b consumer stop isOpen
    stuck := fun _ mem quoted lacking =>
      ⟨exists_stuck s b consumer stop isOpen mem quoted lacking, fun _ _ retries =>
        ⟨(retries.retried isOpen).unpaused, (retries.retried isOpen).stuck quoted⟩⟩ }

/-- A session with a server that has no streams. -/
def newcomer : Worker := ⟨⟨.new "" 0, fun _ => none⟩, 0⟩

def solo : Shared := ⟨[⟨"main", 0, "c"⟩], .default⟩

theorem missing_queue_named_clock : newcomer.client.session.closed = false ∧
    Session.missingQueue? (.server (Answer.noGroup "o'clock" "rpc")) = some "o" ∧
      ∀ n, ∃ w', Retries solo 0 "c" ["o'clock"] 0 n newcomer w' ∧
        w'.pauses = 0 ∧ w'.client.streams "o'clock" = none := by
  have isOpen : newcomer.client.session.closed = false := rfl
  obtain ⟨names, loop⟩ := missing_queue_named solo 0 "c" ["o'clock"] 0 isOpen
  have cut : beforeQuote "o'clock" = "o" := by decide +kernel
  obtain ⟨runs, stays⟩ := loop.stuck "o'clock" List.mem_cons_self (by decide) rfl
  refine ⟨isOpen, cut ▸ (names "o'clock" "rpc").missing, fun n => ?_⟩
  obtain ⟨w', retries⟩ := runs n
  exact ⟨w', retries, stays n w' retries⟩

theorem not_always_named : ¬ ∀ q g,
    Session.missingQueue? (.server (Answer.noGroup q g)) = some q := by
  intro always
  have free := (named "o'clock" "rpc").exact_iff.mp (always "o'clock" "rpc")
  exact free (by decide)

end BrokeredCalls.Redis
