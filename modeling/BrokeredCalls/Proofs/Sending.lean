import BrokeredCalls.Proofs.Enqueueing
import BrokeredCalls.Proofs.Retry.Courses

/-!
What calls, deferred calls and cancellations leave on their brokers. Nothing at all if they are refused;
else they try to append one entry, and whatever attempts fail, it is there once if the last one succeeds
and not at all if that one fails too.
-/

namespace BrokeredCalls.Node

open Hub (Does Transition queueAt)
open Program (Runs)

structure Made where
  broker : BrokerId
  did : Transition

/-- The calls that one program makes, the newest first, while services go by `routes`. Before each of
them the store of its broker may be any. -/
def Noting (routes : String → Option Route) (ms : List Made) :
    (r : Effect) → r.Answer → List Made → Prop
  | .broker b c, a, ms' => ∃ h now h', Does h now (.call c) a h' ∧
    ms' = ⟨b, h, now, .call c, a, h'⟩ :: ms
  | .readUnlessStopped b group consumer services count block _, .value a, ms' => ∃ h now h',
    Does h now (.call (.readGroup group consumer services count block)) a h' ∧
      ms' = ⟨b, h, now, .call (.readGroup group consumer services count block), a, h'⟩ :: ms
  | .resolve service, route, ms' => route = routes service ∧ ms' = ms
  | _, _, ms' => ms' = ms

inductive Sending where
  | call (service : String) (payload : Bytes)
  | callWithTimeout (service : String) (payload : Bytes) (timeout : Duration)
  | schedule (service : String) (instant : Instant) (payload : Bytes)
  | cancel (service : String) (instant : Instant)

namespace Sending

abbrev Value : Sending → Type
  | call .. | callWithTimeout .. => Bytes
  | schedule .. => FireTime
  | cancel .. => Unit

def service : Sending → String
  | call service _ | callWithTimeout service _ _ | schedule service _ _ | cancel service _ => service

def program (s : Shared) : (o : Sending) → Attempt o.Value
  | call service payload => Node.call s service payload
  | callWithTimeout service payload timeout => Node.callWithTimeout s service payload timeout
  | schedule service instant payload => scheduleAt s service instant payload
  | cancel service instant => Node.cancel s service instant

def entry : Sending → Except Error Envelope
  | call service payload | callWithTimeout service payload _ => .ok (.immediate service payload)
  | schedule service instant payload => instant.fireTime.map (Envelope.deferred service · payload)
  | cancel service instant => instant.fireTime.map (Envelope.tombstone service)

def Awaits (b : BrokerId) (service id : String) (timeout : Duration) (ms ms' : List Made) : Prop :=
  ∃ t, ms' = ⟨b, t⟩ :: ms ∧ t.action = .call (.popReply (Key.reply service id) timeout) ∧ Idle t

/-- What follows an enqueueing: its error, or a wait for the reply to the id, or nothing. -/
def Ends (s : Shared) (b : BrokerId) : (o : Sending) → Except Error String → List Made →
    Except Error o.Value → List Made → Prop
  | _, .error e, ms, r, ms' => r = .error e ∧ ms' = ms
  | call service _, .ok id, ms, _, ms' => Awaits b service id s.config.callTimeout ms ms'
  | callWithTimeout service _ timeout, .ok id, ms, _, ms' => Awaits b service id timeout ms ms'
  | schedule _ instant _, .ok _, ms, r, ms' => r = instant.fireTime ∧ ms' = ms
  | cancel .., .ok _, ms, r, ms' => r = .ok () ∧ ms' = ms

end Sending

def Spoilt (b : BrokerId) (e : Envelope) (m : Made) : Prop :=
  ∃ h now bound error, error.isTransport = true ∧
    m = ⟨b, h, now, .call (.append e.service e bound), .error error, h⟩

/-- What an enqueueing did: the last attempt appended, or none. -/
def Enqueued (b : BrokerId) (e : Envelope) : Except Error String → List Made → Prop
  | .ok id, ms => ∃ t older, ms = ⟨b, t⟩ :: older ∧ Appends e id t ∧ ∀ m ∈ older, Spoilt b e m
  | .error error, ms => error.isTransport = true ∧ ∀ m ∈ ms, Spoilt b e m

def isRefusal : Error → Bool
  | .serviceNotFound _ | .missingConfig _ | .emptyPayload _ | .invalidFireTime _ => true
  | _ => false

theorem not_refusal_of_isTransport {e : Error} (h : e.isTransport = true) : isRefusal e = false := by
  cases e with
  | transport | transportRetryable => rfl
  | _ => cases h

section

variable {s : Shared} {routes : String → Option Route} {b : BrokerId} {e : Envelope}
  {service : String} {payload : Bytes} {ms ms' : List Made}

theorem enqueued_of_attempt {r : Except Error String}
    (run : Runs (Noting routes) (serveRetry s b e .attempt) ms r ms')
    (spoilt : ∀ m ∈ ms, Spoilt b e m) : Enqueued b e r ms' := by
  obtain ⟨h, now, h', does, rfl⟩ := Runs.request_iff.mp run
  cases r with
  | ok id => exact ⟨_, ms, rfl, appends_of_does does, spoilt⟩
  | error error =>
    obtain ⟨transport, rfl⟩ := does_append_error does
    exact ⟨transport, List.forall_mem_cons.mpr ⟨⟨_, now, _, error, transport, rfl⟩, spoilt⟩⟩

theorem enqueue_noted {r : Except Error String}
    (run : Runs (Noting routes) (enqueue s b e).run [] r ms) : Enqueued b e r ms := by
  have tried := Retry.tried_of_program (Runs.expand_iff.mp run)
  refine tried.comes (P := fun ms => ∀ m ∈ ms, Spoilt b e m) ?_ ?_ ?_ ?_ (List.forall_mem_nil _)
  · intro ms r ms' spoilt attempt
    exact enqueued_of_attempt attempt spoilt
  · intro text ms failed
    exact failed.2
  · intro ms k ms' spoilt drawn
    obtain rfl := Runs.request_iff.mp drawn
    exact spoilt
  · intro ms d length ms' spoilt waited
    obtain rfl := Runs.request_iff.mp waited
    exact spoilt

/-- A check makes no call on a broker, and refuses or leaves its condition. -/
def Checks {α : Type} (routes : String → Option Route) (p : Attempt α) (post : α → Prop) : Prop :=
  ∀ ms r ms', Runs (Noting routes) p.run ms r ms' →
    ms' = ms ∧ match r with
      | .ok a => post a
      | .error error => isRefusal error = true

theorem Checks.cases {α β : Type} {p : Attempt α} {post : α → Prop} {f : α → Attempt β}
    {r : Except Error β} (checks : Checks routes p post)
    (run : Runs (Noting routes) (p >>= f).run ms r ms') :
    (∃ error, r = .error error ∧ isRefusal error = true ∧ ms' = ms) ∨
      ∃ a, post a ∧ Runs (Noting routes) (f a).run ms r ms' := by
  rcases Runs.bindExcept_iff.mp run with ⟨a, ms₁, checked, rest⟩ | ⟨error, checked, rfl⟩
  · obtain ⟨rfl, holds⟩ := checks _ _ _ checked
    exact .inr ⟨a, holds, rest⟩
  · obtain ⟨rfl, refusal⟩ := checks _ _ _ checked
    exact .inl ⟨error, rfl, refusal, rfl⟩

theorem brokerFor_checks (s : Shared) (service : String) : Checks routes (brokerFor s service)
    fun b => ∃ route, routes service = some route ∧ s.brokerOf route.source = some b := by
  intro ms r ms' run
  rw [brokerFor_eq] at run
  obtain ⟨found, ms₁, ⟨rfl, rfl⟩, rfl, rfl⟩ := run
  refine ⟨rfl, ?_⟩
  cases routes service with
  | none => rfl
  | some route =>
    unfold Shared.located
    dsimp only
    cases hb : s.brokerOf route.source with
    | none => rfl
    | some b => exact ⟨route, rfl, hb⟩

theorem requirePayload_checks (service : String) (payload : Bytes) :
    Checks routes (requirePayload service payload) fun _ => payload.isEmpty = false := by
  intro ms r ms' run
  rw [requirePayload_eq] at run
  obtain ⟨rfl, rfl⟩ := run
  refine ⟨rfl, ?_⟩
  cases filled : payload.isEmpty <;> rfl

theorem refusal_of_fireTime {instant : Instant} {error : Error}
    (h : instant.fireTime = .error error) : isRefusal error = true := by
  unfold Instant.fireTime at h
  split at h
  · cases h
    rfl
  · split at h <;> cases h
    rfl

theorem fireTime_checks (instant : Instant) :
    Checks routes (fireTime instant) fun t => instant.fireTime = .ok t := by
  intro ms r ms' run
  rw [fireTime_eq] at run
  obtain ⟨rfl, rfl⟩ := run
  refine ⟨rfl, ?_⟩
  cases htime : instant.fireTime with
  | ok t => rfl
  | error error => exact refusal_of_fireTime htime

def Accepted (s : Shared) (routes : String → Option Route) (o : Sending) (r : Except Error o.Value)
    (ms : List Made) : Prop :=
  ∃ e route b step done, o.entry = .ok e ∧ routes o.service = some route ∧
    s.brokerOf route.source = some b ∧ Runs (Noting routes) (enqueue s b e).run [] step done ∧
      Enqueued b e step done ∧ o.Ends s b step done r ms

structure Sent (s : Shared) (routes : String → Option Route) (o : Sending) (r : Except Error o.Value)
    (ms : List Made) : Prop where
  refused : ∀ error, r = .error error → isRefusal error = true → ms = []
  accepted : (∀ error, r = .error error → isRefusal error = false) → Accepted s routes o r ms

namespace Sent

variable {o : Sending} {r : Except Error o.Value}

theorem refusal {error : Error} (refusal : isRefusal error = true) :
    Sent s routes o (.error error) [] := by
  refine ⟨fun _ _ _ => rfl, fun granted => ?_⟩
  rw [granted error rfl] at refusal
  cases refusal

theorem acceptance (accepted : Accepted s routes o r ms)
    (granted : ∀ error, r = .error error → isRefusal error = false) : Sent s routes o r ms := by
  refine ⟨fun error heq refusal => ?_, fun _ => accepted⟩
  rw [granted error heq] at refusal
  cases refusal

end Sent

theorem awaitReply_noted {id : String} {timeout : Duration} {r : Except Error Bytes}
    (run : Runs (Noting routes)
      (onBrokerAttempt b (Broker.awaitReply (Key.reply service id) timeout)).run ms r ms') :
    Sending.Awaits b service id timeout ms ms' ∧ ∀ error, r = .error error → isRefusal error = false := by
  rw [awaitReply_eq] at run
  obtain ⟨a, _, ⟨h, now, h', does, rfl⟩, rfl, rfl⟩ := run
  refine ⟨⟨_, rfl, rfl, idle_of_popReply does⟩, fun error he => ?_⟩
  cases a with
  | error e =>
    cases he
    exact not_refusal_of_isTransport (popReply_error does)
  | ok popped =>
    cases popped with
    | none =>
      cases he
      rfl
    | some frame =>
      unfold received at he
      dsimp only at he
      cases hd : Reply.decode frame with
      | error e =>
        rw [hd] at he
        cases he
        exact not_refusal_of_isTransport (decode_error hd)
      | ok reply =>
        rw [hd] at he
        cases reply <;> cases he
        rfl

theorem sent_of_enqueue {o : Sending} {route : Route} {f : String → Attempt o.Value}
    {r : Except Error o.Value} (entry : o.entry = .ok e) (hroute : routes o.service = some route)
    (hb : s.brokerOf route.source = some b)
    (run : Runs (Noting routes) (enqueue s b e >>= f).run [] r ms)
    (ends : ∀ id done r ms, Runs (Noting routes) (f id).run done r ms →
      o.Ends s b (.ok id) done r ms ∧ ∀ error, r = .error error → isRefusal error = false) :
    Sent s routes o r ms := by
  rcases Runs.bindExcept_iff.mp run with ⟨id, done, enqueued, rest⟩ | ⟨error, enqueued, rfl⟩
  · obtain ⟨ended, granted⟩ := ends id done r ms rest
    exact .acceptance ⟨e, route, b, _, done, entry, hroute, hb, enqueued, enqueue_noted enqueued, ended⟩
      granted
  · have tried := enqueue_noted enqueued
    refine .acceptance ⟨e, route, b, _, ms, entry, hroute, hb, enqueued, tried, ?_⟩ ?_
    · cases o <;> exact ⟨rfl, rfl⟩
    · rintro _ ⟨⟩
      exact not_refusal_of_isTransport tried.1

/-- Whatever fails, an operation that is not refused appends its entry once or, where its enqueueing
fails, not at all; one that is refused calls no broker. -/
theorem program_sent {o : Sending} {r : Except Error o.Value}
    (run : Runs (Noting routes) (o.program s).run [] r ms) : Sent s routes o r ms := by
  cases o with
  | call service payload | callWithTimeout service payload =>
    rcases (brokerFor_checks s service).cases run with ⟨error, rfl, refusal, rfl⟩ | ⟨b, found, run⟩
    · exact .refusal refusal
    obtain ⟨route, hroute, hb⟩ := found
    rcases (requirePayload_checks service payload).cases run with
      ⟨error, rfl, refusal, rfl⟩ | ⟨_, -, run⟩
    · exact .refusal refusal
    exact sent_of_enqueue rfl hroute hb run fun id done r ms rest => awaitReply_noted rest
  | schedule service instant payload =>
    rcases (fireTime_checks instant).cases run with ⟨error, rfl, refusal, rfl⟩ | ⟨t, htime, run⟩
    · exact .refusal refusal
    rcases (brokerFor_checks s service).cases run with ⟨error, rfl, refusal, rfl⟩ | ⟨b, found, run⟩
    · exact .refusal refusal
    obtain ⟨route, hroute, hb⟩ := found
    rcases (requirePayload_checks service payload).cases run with
      ⟨error, rfl, refusal, rfl⟩ | ⟨_, -, run⟩
    · exact .refusal refusal
    refine sent_of_enqueue (congrArg (Except.map (Envelope.deferred service · payload)) htime) hroute hb
      run fun id done r ms rest => ?_
    obtain ⟨rfl, rfl⟩ : r = .ok t ∧ ms = done := rest
    exact ⟨⟨htime.symm, rfl⟩, nofun⟩
  | cancel service instant =>
    rcases (fireTime_checks instant).cases run with ⟨error, rfl, refusal, rfl⟩ | ⟨t, htime, run⟩
    · exact .refusal refusal
    rcases (brokerFor_checks s service).cases run with ⟨error, rfl, refusal, rfl⟩ | ⟨b, found, run⟩
    · exact .refusal refusal
    obtain ⟨route, hroute, hb⟩ := found
    refine sent_of_enqueue (congrArg (Except.map (Envelope.tombstone service)) htime) hroute hb
      run fun id done r ms rest => ?_
    obtain ⟨rfl, rfl⟩ : r = .ok () ∧ ms = done := rest
    exact ⟨⟨rfl, rfl⟩, nofun⟩

end

namespace Retried

def shared : Shared := ⟨[⟨"main", 0, "consumer"⟩], { Config.default with retry := some .default }⟩

def routing : String → Option Route := fun _ => some ⟨none, "main"⟩

abbrev deferring : Sending := .schedule "s" ⟨5⟩ [1]

def now : Moment := ⟨⟨0⟩, 0⟩

def entry : Envelope := .deferred "s" 5 [1]

def appended : EntryId × Hub := Hub.empty.append now "s" entry (some 4096)

/-- The store is out of reach at the first attempt. -/
def made : List Made :=
  [⟨0, .empty, now, .call (.append "s" entry 4096), .ok appended.1.text, appended.2⟩,
    ⟨0, .empty, now, .call (.append "s" entry 4096), .error (.transportRetryable ""), .empty⟩]

theorem enqueued : Runs (Noting routing) (enqueue shared 0 entry).run [] (.ok appended.1.text) made := by
  have served : Hub.empty.serve now 0 (.append "s" entry 4096) =
      some (.ok appended.1.text, appended.2) := rfl
  have failed : Does .empty now (.call (.append "s" entry 4096)) (.error (.transportRetryable ""))
      .empty := .inr ⟨_, rfl, rfl, rfl⟩
  have tried : Runs (Noting routing) (serveRetry shared 0 entry .attempt) []
      (.error (.transportRetryable "")) made.tail :=
    Runs.request_iff.mpr ⟨.empty, now, .empty, failed, rfl⟩
  have appended : Runs (Noting routing) (serveRetry shared 0 entry .attempt) made.tail
      (.ok appended.1.text) made :=
    Runs.request_iff.mpr ⟨.empty, now, appended.2, Hub.does_of_serve served, rfl⟩
  exact Runs.expand_iff.mpr (Retry.runs_default_again tried (Runs.request_iff.mpr rfl)
    (Runs.request_iff.mpr rfl) (Retry.runs_loop_ok 2 appended))

theorem run : Runs (Noting routing) (deferring.program shared).run [] (.ok 5) made := by
  refine Runs.bindExcept_iff.mpr (.inl ⟨5, [], ⟨rfl, rfl⟩, ?_⟩)
  refine Runs.bindExcept_iff.mpr (.inl ⟨0, [], ?_, ?_⟩)
  · exact Runs.ask_iff.mpr ⟨some ⟨none, "main"⟩, [], ⟨rfl, rfl⟩, rfl, rfl⟩
  refine Runs.bindExcept_iff.mpr (.inl ⟨(), [], ⟨rfl, rfl⟩, ?_⟩)
  exact Runs.bindExcept_iff.mpr (.inl ⟨_, made, enqueued, rfl, rfl⟩)

end Retried

theorem program_sent_retried :
    Runs (Noting Retried.routing) (Retried.deferring.program Retried.shared).run [] (.ok 5) Retried.made ∧
      Sent Retried.shared Retried.routing Retried.deferring (.ok 5) Retried.made :=
  ⟨Retried.run, program_sent Retried.run⟩

end BrokeredCalls.Node
