import Mathlib.Algebra.GroupWithZero.Nat
import BrokeredCalls.Node.Basic
import BrokeredCalls.Proofs.Retry.Courses
import BrokeredCalls.Redis.Session

/-!
What a server may have done for one enqueueing. An answer tells whether the entry was accepted; a
deadline that passed and a connection that was dropped tell nothing, and both are tried again.
-/

namespace BrokeredCalls.Redis

open Program (Runs)

structure Sent where
  on : Connection
  commands : List Command
  outcome : Outcome
  executed : Nat

/-- Nothing came back that tells what became of it. -/
def Sent.lost (x : Sent) : Bool :=
  match x.outcome with
  | .answers _ => false
  | .dropped | .late => true

def executions (log : List Sent) : Nat := (log.map (·.executed)).sum

/-- What a server that does not lie has executed when an exchange ends. -/
def Honest (commands : List Command) : Outcome → Nat → Prop
  | .answers vs, n => vs.length = commands.length ∧ n = vs.countP (·.signalled?.isNone)
  | .dropped, n | .late, n => n ≤ commands.length

def Server : Wire.interface.Service (List Sent)
  | log, .exchange on commands _, outcome, log' => ∃ n, Honest commands outcome n ∧
    log' = ⟨on, commands, outcome, n⟩ :: log
  | log, .connect _, _, log' => log' = log

/-- A node whose broker is a session with that server. While it sleeps the session may be used
otherwise. -/
def Hosted : Node.interface.Service (Session × List Sent)
  | (s, log), .broker _ c, a, (s', log') => Runs Server ((Session.serve c).run s) log (a, s') log'
  | st, .draw, _, st' => st' = st
  | (s, log), .sleep _, _, (s', log') => s'.shared = s.shared ∧ log' = log
  | _, _, _, _ => False

namespace Session

def judge {α : Type} (name what : String) (read : Reading α) : Outcome → Except Error α
  | .answers vs => match (single vs).bind read with
    | .ok a => .ok a
    | .error f => .error (failed name what f)
  | .dropped => .error (failed name what .dropped)
  | .late => .error (late name what commandTimeout)

theorem command_run {α : Type} (what : String) (c : Command) (read : Reading α) (s : Session) :
    (command what c read).run.run s =
      if s.closed then .done (.error (.brokerClosed s.name), s)
      else .ask (I := Wire.interface) (.exchange s.shared [c] commandTimeout) fun o =>
        .done (judge s.name what read o, s) := by
  obtain ⟨name, shared, reading, closed⟩ := s
  cases closed with
  | true => rfl
  | false =>
    refine congrArg (Program.ask (I := Wire.interface) _) (funext fun o => ?_)
    cases o with
    | answers vs =>
      show (orFail what ((single vs).bind read)).run.run ⟨name, shared, reading, false⟩ = _
      dsimp only [judge]
      cases (single vs).bind read <;> rfl
    | dropped => rfl
    | late => rfl

end Session

variable {s s' : Session} {c : Command} {log log' : List Sent} {r : Except Error String}

inductive Added (s : Session) (c : Command) (log : List Sent) :
    Except Error String → List Sent → Prop
  | refused (closed : s.closed = true) : Added s c log (.error (.brokerClosed s.name)) log
  | lost (o : Outcome) (n : Nat) (e : Error) (retryable : e.isRetryable = true)
    (unanswered : (Sent.mk s.shared [c] o n).lost = true) (le : n ≤ 1) :
    Added s c log (.error e) (⟨s.shared, [c], o, n⟩ :: log)
  | accepted (v : Value) (id : String) (reads : Reading.text v = .ok id) :
    Added s c log (.ok id) (⟨s.shared, [c], .answers [v], 1⟩ :: log)
  | rejected (v : Value) (n : Nat) (e : Error) (final : e.isRetryable = false) (le : n ≤ 1)
    (why : n = 0 ∨ ∃ f, Reading.text v = .error f) :
    Added s c log (.error e) (⟨s.shared, [c], .answers [v], n⟩ :: log)

theorem not_retryable_of_text {v : Value} {f : Failure} (h : Reading.text v = .error f) :
    f.isRetryable = false := by
  unfold Reading.text at h
  split at h
  · split at h
    · cases h
    · cases h
      rfl
  · cases h
  · cases h
  · cases h
    rfl

theorem isRetryable_failed (name what : String) (f : Failure) :
    (Session.failed name what f).isRetryable = f.isRetryable := by
  unfold Session.failed
  dsimp only
  split
  · next h => exact h.symm
  · next h => exact (Bool.not_eq_true _ ▸ h).symm

theorem added_of_append {queue : String} {e : Envelope} {n : Nat}
    (run : Runs Server ((Session.serve (.append queue e n)).run s) log (r, s') log') :
    s' = s ∧ Added s (.addEntry queue (some n) (Entry.fields e)) log r log' := by
  have run : Runs Server ((Session.command ("XADD " ++ queue)
    (.addEntry queue (some n) (Entry.fields e)) Reading.text).run.run s) log (r, s') log' := run
  rw [Session.command_run] at run
  split at run
  · next closed =>
    obtain ⟨heq, rfl⟩ := run
    cases heq
    exact ⟨rfl, .refused closed⟩
  · obtain ⟨o, _, ⟨k, honest, rfl⟩, heq, rfl⟩ := run
    obtain ⟨rfl, rfl⟩ := Prod.mk.inj heq
    refine ⟨rfl, ?_⟩
    cases o with
    | dropped => exact .lost _ _ _ rfl rfl honest
    | late => exact .lost _ _ _ rfl rfl honest
    | answers vs =>
      obtain ⟨hlen, rfl⟩ := honest
      obtain ⟨v, rfl⟩ := List.length_eq_one_iff.mp hlen
      cases hv : v.signalled? with
      | some err =>
        have hfailed := isRetryable_failed s'.name ("XADD " ++ queue) (.server err)
        have hone : [v].countP (·.signalled?.isNone) = 0 := by simp [hv]
        simp only [Session.judge, Session.single, hv, Except.bind, hone]
        exact .rejected v 0 _ hfailed (Nat.zero_le 1) (.inl rfl)
      | none =>
        have hone : [v].countP (·.signalled?.isNone) = 1 := by simp [hv]
        simp only [Session.judge, Session.single, hv, Except.bind, hone]
        cases htext : Reading.text v with
        | ok id => exact .accepted v id htext
        | error f =>
          have hfailed := isRetryable_failed s'.name ("XADD " ++ queue) f
          rw [not_retryable_of_text htext] at hfailed
          exact .rejected v 1 _ hfailed (Nat.le_refl 1) (.inr ⟨f, htext⟩)

structure Enqueued (on : Connection) (c : Command) (attempts : Nat) (r : Except Error String)
    (log : List Sent) : Prop where
  sent : ∀ x ∈ log, x.on = on ∧ x.commands = [c] ∧ x.executed ≤ 1
  bounded : log.length ≤ attempts
  earlier : ∀ x ∈ log.tail, x.lost = true
  retryable : ∀ e, r = .error e → e.isRetryable = true → log ≠ [] ∧ ∀ x ∈ log, x.lost = true
  accepted : ∀ id, r = .ok id → ∃ x older, log = x :: older ∧ x.lost = false ∧ x.executed = 1
  rejected : ∀ e, r = .error e → e.isRetryable = false → (∀ x ∈ log, x.lost = true) ∨
    ∃ v n older, log = ⟨on, [c], .answers [v], n⟩ :: older ∧
      (n = 0 ∨ ∃ f, Reading.text v = .error f)
  once : executions log ≤ executions (log.filter Sent.lost) + 1

def Lost (on : Connection) (c : Command) (log : List Sent) : Prop :=
  ∀ x ∈ log, (x.on = on ∧ x.commands = [c] ∧ x.executed ≤ 1) ∧ x.lost = true

theorem Lost.cons {on : Connection} {o : Outcome} {n : Nat} (lost : Lost on c log) (le : n ≤ 1)
    (unanswered : (Sent.mk on [c] o n).lost = true) : Lost on c (⟨on, [c], o, n⟩ :: log) :=
  List.forall_mem_cons.mpr ⟨⟨⟨rfl, rfl, le⟩, unanswered⟩, lost⟩

theorem executions_lost {on : Connection} (lost : Lost on c log) :
    executions log = executions (log.filter Sent.lost) := by
  rw [List.filter_eq_self.mpr fun x hx => (lost x hx).2]

theorem executions_cons {on : Connection} (lost : Lost on c log) {x : Sent} (le : x.executed ≤ 1) :
    executions (x :: log) ≤ executions ((x :: log).filter Sent.lost) + 1 := by
  have hlog := executions_lost lost
  unfold executions at hlog ⊢
  by_cases hx : x.lost = true
  · rw [List.filter_cons_of_pos hx, List.map_cons, List.map_cons, List.sum_cons, List.sum_cons, hlog]
    omega
  · rw [List.filter_cons_of_neg hx, List.map_cons, List.sum_cons, hlog]
    omega

theorem Added.enqueued {attempts : Nat} (added : Added s c log r log') (lost : Lost s.shared c log)
    (room : log.length < attempts) : Enqueued s.shared c attempts r log' := by
  have before (x : Sent) (hx : x ∈ log) := (lost x hx).1
  have unanswered (x : Sent) (hx : x ∈ log) := (lost x hx).2
  cases added with
  | refused closed =>
    refine ⟨before, Nat.le_of_lt room, fun x hx => unanswered x (List.mem_of_mem_tail hx), ?_, nofun,
      fun _ _ _ => .inl unanswered, ?_⟩
    · rintro _ ⟨⟩ ⟨⟩
    · rw [← executions_lost lost]
      exact Nat.le_succ _
  | lost o n e retryable none le =>
    have all := lost.cons le none
    refine ⟨fun x hx => (all x hx).1, room, unanswered,
      fun _ _ _ => ⟨by simp, fun x hx => (all x hx).2⟩, nofun, ?_, executions_cons lost le⟩
    rintro _ ⟨⟩ final
    rw [retryable] at final
    cases final
  | accepted v id reads =>
    refine ⟨List.forall_mem_cons.mpr ⟨⟨rfl, rfl, Nat.le_refl 1⟩, before⟩, room, unanswered, nofun,
      fun _ _ => ⟨_, log, rfl, rfl, rfl⟩, nofun, executions_cons lost (Nat.le_refl 1)⟩
  | rejected v n e final le why =>
    refine ⟨List.forall_mem_cons.mpr ⟨⟨rfl, rfl, le⟩, before⟩, room, unanswered, ?_, nofun,
      fun _ _ _ => .inr ⟨v, n, log, rfl, why⟩, executions_cons lost le⟩
    rintro _ ⟨⟩ retryable
    rw [retryable] at final
    cases final

def addition (node : Node.Shared) (e : Envelope) : Command :=
  .addEntry e.service (some node.config.maxQueueLength) (Entry.fields e)

theorem enqueued_of_tried {node : Node.Shared} {b : BrokerId} {e : Envelope} {n : Nat}
    {st st' : Session × List Sent}
    (tried : Retry.Tried (fun st r a st' => Runs Hosted (Node.serveRetry node b e r) st a st') n
      st r st') (lost : Lost st.1.shared (addition node e) st.2) :
    Enqueued st.1.shared (addition node e) (st.2.length + n + 1) r st'.2 := by
  induction tried with
  | last served =>
    have added := added_of_append (Runs.request_iff.mp served)
    exact added.2.enqueued lost (by omega)
  | @again n st₀ st₁ st₁' st₂ st' r text k d length failed drawn waited rest ih =>
    obtain rfl : st₁' = st₁ := Runs.request_iff.mp drawn
    obtain ⟨s₁, log₁⟩ := st₁'
    obtain ⟨s₂, log₂⟩ := st₂
    obtain ⟨rfl, added⟩ := added_of_append (Runs.request_iff.mp failed)
    obtain ⟨hshared, rfl⟩ := Runs.request_iff.mp waited
    simp only [hshared] at ih
    cases added with
    | lost o k _ retryable none le =>
      have enqueued := ih (lost.cons le none)
      rwa [List.length_cons, Nat.add_right_comm st₀.2.length] at enqueued
    | rejected v k _ final => cases final

theorem enqueue_enqueued {node : Node.Shared} {b : BrokerId} {e : Envelope}
    (run : Runs Hosted (Node.enqueue node b e).run (s, []) r (s', log)) :
    Enqueued s.shared (addition node e) (Retry.retries node.config.retry + 1) r log := by
  have tried := Retry.tried_of_program (Runs.expand_iff.mp run)
  have enqueued := enqueued_of_tried tried (by simp [Lost])
  rwa [List.length_nil, Nat.zero_add] at enqueued

theorem append_runs {queue : String} {e : Envelope} {n k : Nat} {o : Outcome}
    (isOpen : s.closed = false) (honest : Honest [.addEntry queue (some n) (Entry.fields e)] o k) :
    Runs Server ((Session.serve (.append queue e n)).run s) log
      (Session.judge s.name ("XADD " ++ queue) Reading.text o, s)
      (⟨s.shared, [.addEntry queue (some n) (Entry.fields e)], o, k⟩ :: log) := by
  show Runs Server ((Session.command ("XADD " ++ queue) _ Reading.text).run.run s) log _ _
  rw [Session.command_run, isOpen]
  exact ⟨o, _, ⟨k, honest, rfl⟩, rfl, rfl⟩

namespace Twice

def node : Node.Shared := ⟨[⟨"main", 0, "consumer"⟩], { Config.default with retry := some .default }⟩

def session : Session := .new "main" 0

def command : Command := addition node (.immediate "s" [1])

def first : Sent := ⟨0, [command], .late, 1⟩

def second : Sent := ⟨0, [command], .answers [.bulk (Utf8.encode "1-1")], 1⟩

theorem late : Runs Server
    ((Session.serve (.append "s" (.immediate "s" [1]) node.config.maxQueueLength)).run session) []
    (.error (Session.late "main" "XADD s" commandTimeout), session) [first] :=
  append_runs (o := .late) rfl (Nat.le_refl 1)

theorem run : Runs Hosted (Node.enqueue node 0 (.immediate "s" [1])).run (session, []) (.ok "1-1")
    (session, [second, first]) := by
  refine Runs.expand_iff.mpr ?_
  have failed : Runs Hosted (Node.serveRetry node 0 (.immediate "s" [1]) .attempt) (session, [])
      (.error (Session.late "main" "XADD s" commandTimeout)) (session, [first]) :=
    Runs.request_iff.mpr late
  have drawn : Runs Hosted (Node.serveRetry node 0 (.immediate "s" [1]) .draw) (session, [first]) 0
      (session, [first]) := Runs.request_iff.mpr rfl
  have slept : Runs Hosted
      (Node.serveRetry node 0 (.immediate "s" [1]) (.wait (.ofMillis 100) (.ofMillis 75)))
      (session, [first]) () (session, [first]) := Runs.request_iff.mpr ⟨rfl, rfl⟩
  have answered : Runs Hosted (Node.serveRetry node 0 (.immediate "s" [1]) .attempt)
      (session, [first]) (.ok "1-1") (session, [second, first]) :=
    Runs.request_iff.mpr (append_runs (o := .answers [.bulk (Utf8.encode "1-1")]) rfl ⟨rfl, rfl⟩)
  exact Retry.runs_default_again failed drawn slept (Retry.runs_loop_ok 2 answered)

end Twice

theorem enqueued_twice :
    Runs Hosted (Node.enqueue Twice.node 0 (.immediate "s" [1])).run (Twice.session, []) (.ok "1-1")
        (Twice.session, [Twice.second, Twice.first]) ∧
      Enqueued 0 Twice.command 4 (.ok "1-1") [Twice.second, Twice.first] :=
  ⟨Twice.run, enqueue_enqueued Twice.run⟩

/-- A retry may execute a call twice, since a retryable error may hide an entry that was accepted. -/
theorem not_executed_once :
    (¬ ∀ (node : Node.Shared) (b : BrokerId) (e : Envelope) (s s' : Session)
        (r : Except Error String) (log : List Sent),
        Runs Hosted (Node.enqueue node b e).run (s, []) r (s', log) → executions log ≤ 1) ∧
      ¬ ∀ (queue : String) (e : Envelope) (n : Nat) (s s' : Session) (err : Error) (log : List Sent),
        Runs Server ((Session.serve (.append queue e n)).run s) [] (.error err, s') log →
          err.isRetryable = true → executions log = 0 := by
  constructor
  · intro hall
    have once : executions [Twice.second, Twice.first] ≤ 1 := hall _ _ _ _ _ _ _ Twice.run
    exact absurd once (by decide)
  · intro hall
    have none : executions [Twice.first] = 0 := hall _ _ _ _ _ _ _ Twice.late rfl
    exact absurd none (by decide)

end BrokeredCalls.Redis
