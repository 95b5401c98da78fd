import BrokeredCalls.Proofs.Hub.Delivery
import BrokeredCalls.Proofs.Requests
import BrokeredCalls.Proofs.Retry

/-!
What a call leaves on the queue of its service, whatever others do to the store between the caller's own
requests and however these fail. A caller is told of a result, a timeout or a remote failure only after
its entry went on the queue, once. A failure of the transport does not tell whether it did.
-/

namespace BrokeredCalls.Node

open Hub (Does Transition queueAt)
open Program (Runs)

variable {s : Shared} {service : String} {payload : Bytes} {ts ts' : List Transition}

/-- The calls that one program makes on the store, the newest first. Before each of them the store may
be any. -/
def Amid (ts : List Transition) : (r : Effect) → r.Answer → List Transition → Prop
  | .broker _ c, a, ts' => ∃ h now h', Does h now (.call c) a h' ∧ ts' = ⟨h, now, .call c, a, h'⟩ :: ts
  | .readUnlessStopped _ group consumer services count block _, .value a, ts' => ∃ h now h',
    Does h now (.call (.readGroup group consumer services count block)) a h' ∧
      ts' = ⟨h, now, .call (.readGroup group consumer services count block), a, h'⟩ :: ts
  | _, _, ts' => ts' = ts

def Idle (t : Transition) : Prop := t.after.queues = t.before.queues

/-- One more entry on the queue of its service; the other queues stay as they are. -/
structure Enqueues (service : String) (payload : Bytes) (t : Transition) : Prop where
  pushed : ∃ id dropped, Hub.Queue.Pushed (t.before.queueAt service)
    ⟨id, .immediate service payload⟩ dropped (t.after.queueAt service)
  others : ∀ q, q ≠ service → t.after.queueAt q = t.before.queueAt q

def EnqueuedOnce (service : String) (payload : Bytes) (ts : List Transition) : Prop :=
  ∃ newer t older, ts = newer ++ t :: older ∧ Enqueues service payload t ∧
    ∀ u ∈ newer ++ older, Idle u

def WaitFailed (e : Error) (t : Transition) : Prop :=
  ∃ key timeout, t.deed = ⟨.call (.popReply key timeout), .error e⟩ ∨
    ∃ frame, t.deed = ⟨.call (.popReply key timeout), .ok (some frame)⟩ ∧
      Reply.decode frame = .error e

/-- Results that tell of a call which was enqueued. -/
def answered : Except Error Bytes → Bool
  | .ok _ | .error .timeout | .error (.remote _) => true
  | .error _ => false

theorem answered_of_isTransport {e : Error} (h : e.isTransport = true) :
    answered (.error e) = false := by
  cases e with
  | transport | transportRetryable => rfl
  | _ => cases h

structure Appends (e : Envelope) (id : String) (t : Transition) : Prop where
  call : ∃ bound, t.action = .call (.append e.service e bound)
  pushed : ∃ (i : EntryId) (dropped : Nat), i.text = id ∧
    Hub.Queue.Pushed (t.before.queueAt e.service) ⟨i, e.stored e.service⟩ dropped
      (t.after.queueAt e.service)
  others : ∀ q, q ≠ e.service → t.after.queueAt q = t.before.queueAt q
  lists : t.after.lists = t.before.lists
  hashes : t.after.hashes = t.before.hashes

theorem appends_of_does {h h' : Hub} {now : Moment} {e : Envelope} {n : Nat} {id : String}
    (does : Does h now (.call (.append e.service e n)) (.ok id) h') :
    Appends e id ⟨h, now, .call (.append e.service e n), .ok id, h'⟩ := by
  rcases does.cases with ⟨deadline, hs⟩ | ⟨error, -, heq, -⟩
  · have hn : ∀ k, some (max n 1) = some k → 1 ≤ k := by
      rintro _ ⟨⟩
      omega
    have pushed := Hub.Queue.push_pushed (h.queueAt e.service) now.wall.millis
      (e.stored e.service) hn
    obtain ⟨hid, rfl⟩ : Except.ok (h.append now e.service e (some (max n 1))).1.text = Except.ok id ∧
        (h.append now e.service e (some (max n 1))).2 = h' := Prod.mk.inj (Option.some.inj hs)
    refine ⟨⟨n, rfl⟩, ⟨_, (h.queueAt e.service).excess (some (max n 1)), Except.ok.inj hid, ?_⟩,
      fun q hq => ?_, rfl, rfl⟩
    · have own := Hub.queueAt_append h now e.service e (some (max n 1)) e.service
      rw [if_pos rfl] at own
      show Hub.Queue.Pushed _ _ _ ((h.append now e.service e (some (max n 1))).2.queueAt e.service)
      rw [own]
      exact pushed
    · show (h.append now e.service e (some (max n 1))).2.queueAt q = h.queueAt q
      rw [Hub.queueAt_append, if_neg hq]
  · cases heq

theorem enqueues_of_does {h h' : Hub} {now : Moment} {n : Nat} {id : String}
    (does : Does h now (.call (.append service (.immediate service payload) n)) (.ok id) h') :
    Enqueues service payload
      ⟨h, now, .call (.append service (.immediate service payload) n), .ok id, h'⟩ := by
  have appends : Appends (.immediate service payload) id _ := appends_of_does does
  obtain ⟨i, dropped, -, pushed⟩ := appends.pushed
  exact ⟨⟨i, dropped, pushed⟩, appends.others⟩

theorem does_append_error {h h' : Hub} {now : Moment} {queue : String} {env : Envelope} {n : Nat}
    {e : Error} (does : Does h now (.call (.append queue env n)) (.error e) h') :
    e.isTransport = true ∧ h' = h := by
  rcases does.cases with ⟨deadline, hs⟩ | ⟨e', he, heq, rfl⟩
  · cases (Prod.mk.inj (Option.some.inj hs)).1
  · cases heq
    exact ⟨he, rfl⟩

theorem idle_of_popReply {h h' : Hub} {now : Moment} {key : String} {timeout : Duration}
    {a : Except Error (Option Bytes)} (does : Does h now (.call (.popReply key timeout)) a h') :
    Idle ⟨h, now, .call (.popReply key timeout), a, h'⟩ := by
  rcases does.cases with ⟨deadline, hs⟩ | ⟨e, -, -, rfl⟩
  · exact Hub.queues_of_serve hs rfl
  · rfl

theorem popReply_error {h h' : Hub} {now : Moment} {key : String} {timeout : Duration} {e : Error}
    (does : Does h now (.call (.popReply key timeout)) (.error e) h') : e.isTransport = true := by
  rcases does.cases with ⟨deadline, hs⟩ | ⟨e', he, heq, -⟩
  · simp only [Hub.serve] at hs
    grind
  · cases heq
    exact he

theorem brokerFor_amid {r : Except Error BrokerId}
    (run : Runs Amid (brokerFor s service).run ts r ts') :
    ts' = ts ∧ ∀ e, r = .error e → answered (.error e) = false := by
  rw [brokerFor_eq] at run
  obtain ⟨found, ts₁, rfl, rfl, rfl⟩ := run
  refine ⟨rfl, ?_⟩
  intro e he
  rcases Shared.located_error he with rfl | ⟨text, rfl⟩ <;> rfl

theorem requirePayload_amid {r : Except Error Unit}
    (run : Runs Amid (requirePayload service payload).run ts r ts') :
    ts' = ts ∧ ∀ e, r = .error e → answered (.error e) = false := by
  rw [requirePayload_eq] at run
  obtain ⟨rfl, rfl⟩ := run
  refine ⟨rfl, ?_⟩
  rintro e he
  split at he <;> cases he
  rfl

/-- What an enqueueing tells: with an id, that its last attempt and no other put the entry there. -/
def Tells (service : String) (payload : Bytes) : Except Error String → List Transition → Prop
  | .ok _, ts => ∃ t older, ts = t :: older ∧ Enqueues service payload t ∧ ∀ u ∈ older, Idle u
  | .error e, ts => e.isTransport = true ∧ ∀ u ∈ ts, Idle u

theorem tells_of_attempt {b : BrokerId} {r : Except Error String}
    (run : Runs Amid (serveRetry s b (.immediate service payload) .attempt) ts r ts')
    (idle : ∀ u ∈ ts, Idle u) : Tells service payload r ts' := by
  obtain ⟨h, now, h', does, rfl⟩ := Runs.request_iff.mp run
  cases r with
  | ok id => exact ⟨_, ts, rfl, enqueues_of_does does, idle⟩
  | error e =>
    obtain ⟨he, rfl⟩ := does_append_error does
    refine ⟨he, ?_⟩
    rintro u hu
    rcases List.mem_cons.mp hu with rfl | hu
    · rfl
    · exact idle u hu

theorem enqueue_amid {b : BrokerId} {r : Except Error String}
    (run : Runs Amid (enqueue s b (.immediate service payload)).run ts r ts')
    (idle : ∀ u ∈ ts, Idle u) : Tells service payload r ts' := by
  have tried := Retry.tried_of_program (Runs.expand_iff.mp run)
  refine tried.comes (P := fun ts => ∀ u ∈ ts, Idle u) ?_ ?_ ?_ ?_ idle
  · intro ts r ts' idle attempt
    exact tells_of_attempt attempt idle
  · intro text ts failed
    exact failed.2
  · intro ts k ts' idle drawn
    obtain rfl := Runs.request_iff.mp drawn
    exact idle
  · intro ts d length ts' idle waited
    obtain rfl := Runs.request_iff.mp waited
    exact idle

def Awaited (r : Except Error Bytes) (t : Transition) : Prop :=
  Idle t ∧ ((∃ e, r = .error e ∧ e.isTransport = true ∧ WaitFailed e t) ∨ answered r = true)

theorem awaitReply_amid {b : BrokerId} {key : String} {timeout : Duration}
    {r : Except Error Bytes}
    (run : Runs Amid (onBrokerAttempt b (Broker.awaitReply key timeout)).run ts r ts') :
    ∃ t, ts' = t :: ts ∧ Awaited r t := by
  rw [awaitReply_eq] at run
  obtain ⟨a, _, ⟨h, now, h', does, rfl⟩, rfl, rfl⟩ := run
  refine ⟨_, rfl, idle_of_popReply does, ?_⟩
  cases a with
  | error e => exact .inl ⟨e, rfl, popReply_error does, key, timeout, .inl rfl⟩
  | ok popped =>
    cases popped with
    | none => exact .inr rfl
    | some frame =>
      unfold received
      dsimp only
      cases hd : Reply.decode frame with
      | error e => exact .inl ⟨e, rfl, decode_error hd, key, timeout, .inr ⟨frame, rfl, hd⟩⟩
      | ok reply =>
        right
        cases reply <;> rfl

structure Told (service : String) (payload : Bytes) (r : Except Error Bytes)
    (ts : List Transition) : Prop where
  enqueued : answered r = true → EnqueuedOnce service payload ts
  transport : ∀ e, r = .error e → e.isTransport = true → (∀ t ∈ ts, Idle t) ∨
    EnqueuedOnce service payload ts ∧ ∃ t older, ts = t :: older ∧ WaitFailed e t
  refused : ∀ e, r = .error e → answered r = false → e.isTransport = false → ts = []

namespace Told

theorem refusal {e : Error} (fails : answered (.error e) = false) :
    Told service payload (.error e) [] where
  enqueued h := by
    rw [fails] at h
    cases h
  transport _ _ _ := .inl (by simp)
  refused _ _ _ _ := rfl

theorem unsent {e : Error} (he : e.isTransport = true) (idle : ∀ u ∈ ts, Idle u) :
    Told service payload (.error e) ts where
  enqueued h := by
    rw [answered_of_isTransport he] at h
    cases h
  transport _ _ _ := .inl idle
  refused e' heq _ hlocal := by
    cases heq
    rw [he] at hlocal
    cases hlocal

theorem awaited {r : Except Error Bytes} {t t' : Transition} (sent : Enqueues service payload t)
    (idle : ∀ u ∈ ts, Idle u) (awaited : Awaited r t') :
    Told service payload r (t' :: t :: ts) := by
  have once : EnqueuedOnce service payload (t' :: t :: ts) := by
    refine ⟨[t'], t, ts, rfl, sent, ?_⟩
    intro u hu
    rcases List.mem_cons.mp hu with rfl | hu
    · exact awaited.1
    · exact idle u hu
  rcases awaited.2 with ⟨e, rfl, he, failed⟩ | answers
  · refine ⟨fun _ => once, ?_, ?_⟩
    · rintro _ ⟨⟩ -
      exact .inr ⟨once, t', _, rfl, failed⟩
    · rintro _ ⟨⟩ - hlocal
      rw [he] at hlocal
      cases hlocal
  · refine ⟨fun _ => once, ?_, ?_⟩
    · rintro e rfl he
      rw [answered_of_isTransport he] at answers
      cases answers
    · rintro e rfl unanswered
      rw [answers] at unanswered
      cases unanswered

end Told

/-- A call, with its own timeout or with that of its node. -/
inductive Calls (s : Shared) (service : String) (payload : Bytes) : Attempt Bytes → Prop
  | timed (timeout : Duration) : Calls s service payload (callWithTimeout s service payload timeout)
  | plain : Calls s service payload (call s service payload)

theorem Calls.exists_timeout {p : Attempt Bytes} (calls : Calls s service payload p) :
    ∃ timeout, p = callWithTimeout s service payload timeout := by
  cases calls with
  | timed timeout => exact ⟨timeout, rfl⟩
  | plain => exact ⟨s.config.callTimeout, rfl⟩

/-- A transport error leaves it open whether the entry is on the queue: only the wait for the reply
may have failed. -/
theorem callWithTimeout_told {p : Attempt Bytes} {r : Except Error Bytes}
    (calls : Calls s service payload p) (run : Runs Amid p.run [] r ts) : Told service payload r ts := by
  obtain ⟨timeout, rfl⟩ := calls.exists_timeout
  rcases Runs.bindExcept_iff.mp run with ⟨b, ts₁, found, run⟩ | ⟨e, found, rfl⟩
  · obtain ⟨rfl, -⟩ := brokerFor_amid found
    rcases Runs.bindExcept_iff.mp run with ⟨_, ts₂, checked, run⟩ | ⟨e, checked, rfl⟩
    · obtain ⟨rfl, -⟩ := requirePayload_amid checked
      rcases Runs.bindExcept_iff.mp run with ⟨id, ts₃, enqueued, run⟩ | ⟨e, enqueued, rfl⟩
      · obtain ⟨t, older, rfl, sent, idle⟩ := enqueue_amid enqueued (by simp)
        obtain ⟨t', rfl, awaited⟩ := awaitReply_amid run
        exact .awaited sent idle awaited
      · obtain ⟨he, idle⟩ := enqueue_amid enqueued (by simp)
        exact .unsent he idle
    · obtain ⟨rfl, fails⟩ := requirePayload_amid checked
      exact .refusal (fails e rfl)
  · obtain ⟨rfl, fails⟩ := brokerFor_amid found
    exact .refusal (fails e rfl)

namespace Lost

def shared : Shared := ⟨[⟨"main", 0, "consumer"⟩], Config.default⟩

def now : Moment := ⟨⟨0⟩, 0⟩

def appended : EntryId × Hub := Hub.empty.append now "s" (.immediate "s" [1]) (some 4096)

/-- The entry is on the queue, and then the store is out of reach. -/
def transitions : List Transition :=
  [⟨appended.2, now, .call (.popReply (Key.reply "s" appended.1.text) ⟨0⟩), .error (.transport ""),
      appended.2⟩,
    ⟨.empty, now, .call (.append "s" (.immediate "s" [1]) 4096), .ok appended.1.text, appended.2⟩]

theorem run : Runs Amid (callWithTimeout shared "s" [1] ⟨0⟩).run [] (.error (.transport ""))
    transitions := by
  have served : Hub.empty.serve now 0 (.append "s" (.immediate "s" [1]) 4096) =
      some (.ok appended.1.text, appended.2) := rfl
  refine Runs.ask_iff.mpr ⟨some ⟨none, "main"⟩, [], rfl, ?_⟩
  refine Runs.ask_iff.mpr ⟨.ok appended.1.text, _,
    ⟨.empty, now, appended.2, Hub.does_of_serve served, rfl⟩, ?_⟩
  refine Runs.ask_iff.mpr ⟨.error (.transport ""), _,
    ⟨appended.2, now, appended.2, .inr ⟨.transport "", rfl, rfl, rfl⟩, rfl⟩, ?_⟩
  exact ⟨rfl, rfl⟩

end Lost

theorem told_lost :
    Calls Lost.shared "s" [1] (callWithTimeout Lost.shared "s" [1] ⟨0⟩) ∧
      Runs Amid (callWithTimeout Lost.shared "s" [1] ⟨0⟩).run [] (.error (.transport ""))
        Lost.transitions ∧
      Told "s" [1] (.error (.transport "")) Lost.transitions :=
  ⟨.timed ⟨0⟩, Lost.run, callWithTimeout_told (.timed ⟨0⟩) Lost.run⟩

theorem enqueued_despite_transport_error :
    ¬ ∀ (s : Shared) (service : String) (payload : Bytes) (timeout : Duration) (e : Error)
      (ts : List Transition),
      Runs Amid (callWithTimeout s service payload timeout).run [] (.error e) ts →
        e.isTransport = true → ∀ t ∈ ts, Idle t := by
  intro hall
  have idle := hall _ _ _ _ _ _ Lost.run rfl _ (List.mem_cons_of_mem _ List.mem_cons_self)
  have absent : Hub.empty.queueLength "s" = 0 := rfl
  have there : Lost.appended.2.queueLength "s" = 1 := by decide +kernel
  have same : Lost.appended.2.queueLength "s" = Hub.empty.queueLength "s" := by
    unfold Hub.queueLength
    rw [show Lost.appended.2.queues = Hub.empty.queues from idle]
  omega

end BrokeredCalls.Node
