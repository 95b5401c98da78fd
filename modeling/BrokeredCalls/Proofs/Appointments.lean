import BrokeredCalls.Proofs.Asking
import BrokeredCalls.Proofs.Sending
import BrokeredCalls.Proofs.Text.Keys

/-!
Deferred calls by the instant they are made for. Whoever schedules, cancels or awaits one makes the fire
time of the instant anew, and what they say of it travels as decimal text. They mean the same call just
when they were given the same instant, and they are refused before any broker is asked just when no fire
time can be made of it.
-/

namespace BrokeredCalls

namespace Instant

/-- Before the epoch, or too late after it. -/
def Unfit (a : Instant) : Prop := a.nanos < 0 ∨ 2 ^ 63 - 1 < a.nanos

variable {a b : Instant} {t u : FireTime}

theorem fireTime_eq_ok_iff : a.fireTime = .ok t ↔ 0 ≤ a.nanos ∧ t.toInt = a.nanos := by
  have latest : Int64.maxValue.toInt = 2 ^ 63 - 1 := rfl
  have bound : t.toInt < 2 ^ 63 := Int64.toInt_lt t
  unfold fireTime
  split
  · next before => exact ⟨nofun, fun ⟨after, _⟩ => absurd before (Int.not_lt.mpr after)⟩
  · next after =>
    split
    · next le =>
      have kept : (Int64.ofInt a.nanos).toInt = a.nanos :=
        Int64.toInt_ofInt_of_le (by omega) (by omega)
      constructor
      · rintro ⟨⟩
        exact ⟨Int.not_lt.mp after, kept⟩
      · rintro ⟨-, same⟩
        rw [← Int64.toInt_inj.mp (kept.trans same.symm)]
    · next beyond => exact ⟨nofun, fun ⟨_, same⟩ => absurd same (by omega)⟩

theorem exists_fireTime (a : Instant) :
    (a.Unfit ∧ ∃ reason, a.fireTime = .error (.invalidFireTime reason)) ∨
      ¬ a.Unfit ∧ ∃ t, a.fireTime = .ok t := by
  have latest : Int64.maxValue.toInt = 2 ^ 63 - 1 := rfl
  unfold fireTime Unfit
  split
  · next before => exact .inl ⟨.inl before, _, rfl⟩
  · next after =>
    split
    · next le => exact .inr ⟨by omega, _, rfl⟩
    · next beyond => exact .inl ⟨.inr (by omega), _, rfl⟩

theorem exists_fireTime_iff : (∃ t, a.fireTime = .ok t) ↔ ¬ a.Unfit := by
  rcases a.exists_fireTime with ⟨unfit, reason, refused⟩ | ⟨fit, fits⟩
  · rw [refused]
    exact ⟨nofun, fun fit => absurd unfit fit⟩
  · exact ⟨fun _ => fit, fun _ => fits⟩

theorem eq_of_fireTime (ha : a.fireTime = .ok t) (hb : b.fireTime = .ok t) : a = b := by
  obtain ⟨-, left⟩ := fireTime_eq_ok_iff.mp ha
  obtain ⟨-, right⟩ := fireTime_eq_ok_iff.mp hb
  cases a
  cases b
  exact congrArg Instant.mk (left.symm.trans right)

theorem fireTime_lt_iff (ha : a.fireTime = .ok t) (hb : b.fireTime = .ok u) :
    t < u ↔ a.nanos < b.nanos := by
  obtain ⟨-, left⟩ := fireTime_eq_ok_iff.mp ha
  obtain ⟨-, right⟩ := fireTime_eq_ok_iff.mp hb
  rw [Int64.lt_iff_toInt_lt, left, right]

end Instant

namespace Node

open Broker (Call)
open Program (Asks Comes Runs)

inductive Errand where
  | schedule (payload : Bytes)
  | cancel
  | await (timeout : Duration)

namespace Errand

abbrev Value : Errand → Type
  | schedule _ => FireTime
  | cancel => Unit
  | await _ => Bytes

variable (s : Shared) (service : String)

def program (a : Instant) : (o : Errand) → Attempt o.Value
  | schedule payload => scheduleAt s service a payload
  | cancel => Node.cancel s service a
  | await timeout => awaitScheduled s service a timeout

def rest (t : FireTime) (b : BrokerId) : (o : Errand) → Attempt o.Value
  | schedule payload => do
    requirePayload service payload
    let _ ← enqueue s b (.deferred service t payload)
    return t
  | cancel => do
    let _ ← enqueue s b (.tombstone service t)
    return ()
  | await timeout => onBrokerAttempt b (Broker.awaitReply (Key.deferredReply service t) timeout)

/-- The only call that an errand makes on a broker, perhaps more than once. -/
def call (t : FireTime) : Errand → Call
  | schedule payload => .append service (.deferred service t payload) s.config.maxQueueLength
  | cancel => .append service (.tombstone service t) s.config.maxQueueLength
  | await timeout => .popReply (Key.deferredReply service t) timeout

def filled : Errand → Prop
  | schedule payload => payload ≠ []
  | cancel | await _ => True

variable {s service} {a : Instant} {t : FireTime} {o : Errand}

theorem program_eq :
    o.program s service a =
      fireTime a >>= fun t => brokerFor s service >>= fun b => o.rest s service t b := by
  cases o <;> rfl

theorem program_of_error {e : Error} (h : a.fireTime = .error e) :
    (o.program s service a).run = .done (.error e) := by
  rw [program_eq, ExceptT.run_bind, fireTime_eq, h]
  rfl

theorem program_of_ok (h : a.fireTime = .ok t) :
    (o.program s service a).run = (brokerFor s service >>= fun b => o.rest s service t b).run := by
  rw [program_eq, ExceptT.run_bind, fireTime_eq, h]
  rfl

def Bound (c : Call) (r : Effect) : Prop := ∀ b c', r = .broker b c' → c' = c

theorem bound_call (b : BrokerId) (c : Call) : Bound c (.broker b c) := by
  rintro _ _ ⟨⟩
  rfl

theorem asks_rest (b : BrokerId) :
    Asks (I := interface) (Bound (o.call s service t)) (o.rest s service t b).run := by
  cases o with
  | schedule payload =>
    refine .bindExcept (asks_requirePayload payload) fun _ => ?_
    exact .bindExcept (asks_enqueue (bound_call b _) nofun nofun nofun) fun _ => trivial
  | cancel => exact .bindExcept (asks_enqueue (bound_call b _) nofun nofun nofun) fun _ => trivial
  | await timeout => exact asks_awaitReply (bound_call b _)

theorem comes_enqueue (b : BrokerId) (e : Envelope) :
    Comes (I := interface) (.broker b (.append e.service e s.config.maxQueueLength))
      (enqueue s b e).run := by
  show Comes _ (Program.expand _ (Retry.program s.config.retry))
  cases s.config.retry with
  | none => exact .inl rfl
  | some c =>
    obtain ⟨again, same⟩ := Retry.loop_eq (α := String) c c.maxAttempts.toNat c.initialDelay
    rw [Retry.program, same]
    exact .inl rfl

theorem comes_rest (b : BrokerId) (filled : o.filled) :
    Comes (I := interface) (.broker b (o.call s service t)) (o.rest s service t b).run := by
  cases o with
  | schedule payload =>
    obtain ⟨x, rest, rfl⟩ := List.exists_cons_of_ne_nil filled
    exact Comes.bind (p := (enqueue s b (.deferred service t (x :: rest))).run)
      (comes_enqueue b (.deferred service t (x :: rest)))
  | cancel => exact Comes.bind (comes_enqueue b (.tombstone service t))
  | await timeout =>
    show Comes _ (onBrokerAttempt b (Broker.awaitReply _ timeout)).run
    rw [awaitReply_eq]
    exact .inl rfl

variable (s service a) in
/-- What the errand may ask of a broker, whatever it is answered. -/
def Reaches (o : Errand) (c : Call) : Prop :=
  ∃ b, Comes (I := interface) (.broker b c) (o.program s service a).run

theorem reaches_iff {c : Call} (ready : s.sources ≠ []) (filled : o.filled) :
    o.Reaches s service a c ↔ ∃ t, a.fireTime = .ok t ∧ c = o.call s service t := by
  constructor
  · rintro ⟨b, comes⟩
    rcases a.exists_fireTime with ⟨-, reason, refused⟩ | ⟨-, t, fits⟩
    · rw [program_of_error refused] at comes
      exact comes.elim
    · rw [program_of_ok fits] at comes
      have asks : Asks (I := interface) (Bound (o.call s service t))
          (brokerFor s service >>= fun b => o.rest s service t b).run :=
        .bindExcept (asks_brokerFor nofun) asks_rest
      exact ⟨t, fits, asks.of_comes comes b c rfl⟩
  · rintro ⟨t, fits, rfl⟩
    obtain ⟨x, others, listed⟩ := List.exists_cons_of_ne_nil ready
    refine ⟨x.broker, ?_⟩
    have located : s.located service (some ⟨none, x.name⟩) = .ok x.broker := by
      simp [Shared.located, Shared.brokerOf, listed]
    rw [program_of_ok fits, ExceptT.run_bind, brokerFor_eq]
    refine .inr ⟨some ⟨none, x.name⟩, ?_⟩
    show Comes _ (Program.done (s.located service _) >>= _)
    rw [located]
    exact comes_rest x.broker filled

end Errand

def handed (queue : String) (e : Envelope) (id : String) : Delivery :=
  ⟨queue, id, (e.stored queue).withEntryId id⟩

section

variable {s : Shared} {b : BrokerId} {service id : String} {t : FireTime} {payload : Bytes} {r : Effect}

theorem route_deferred (filled : payload ≠ []) :
    Dispatch.route s b (handed service (.deferred service t payload) id) =
      .ask (I := interface) (.broker b (.hashSet (Key.delay service) (Decimal.ofInt64 t) payload)) fun
        | .ok _ => .ask (I := interface) (.pending (.insert ⟨t, service⟩)) fun _ => .done ()
        | .error _ => .done () := by
  obtain ⟨x, rest, rfl⟩ := List.exists_cons_of_ne_nil filled
  refine congrArg (Program.ask (I := interface) _) (funext fun answer => ?_)
  cases answer <;> rfl

theorem route_tombstone :
    Dispatch.route s b (handed service (.tombstone service t) id) =
      .ask (I := interface) (.pending (.erase ⟨t, service⟩)) fun _ =>
        .ask (I := interface) (.broker b (.hashDelete (Key.delay service) (Decimal.ofInt64 t))) fun _ =>
          .done () := by
  refine congrArg (Program.ask (I := interface) _) (funext fun _ => ?_)
  refine congrArg (Program.ask (I := interface) _) (funext fun answer => ?_)
  cases answer <;> rfl

theorem comes_route_deferred (filled : payload ≠ []) :
    Comes (I := interface) r (Dispatch.route s b (handed service (.deferred service t payload) id)) ↔
      r = .broker b (.hashSet (Key.delay service) (Decimal.ofInt64 t) payload) ∨
        r = .pending (.insert ⟨t, service⟩) := by
  rw [route_deferred filled]
  constructor
  · rintro (rfl | ⟨answer, comes⟩)
    · exact .inl rfl
    · cases answer with
      | error e => exact comes.elim
      | ok u => exact .inr (comes.resolve_right fun ⟨_, never⟩ => never.elim)
  · rintro (rfl | rfl)
    · exact .inl rfl
    · exact .inr ⟨.ok (), .inl rfl⟩

theorem comes_route_tombstone :
    Comes (I := interface) r (Dispatch.route s b (handed service (.tombstone service t) id)) ↔
      r = .pending (.erase ⟨t, service⟩) ∨
        r = .broker b (.hashDelete (Key.delay service) (Decimal.ofInt64 t)) := by
  rw [route_tombstone]
  constructor
  · rintro (rfl | ⟨_, rfl | ⟨_, never⟩⟩)
    · exact .inl rfl
    · exact .inr rfl
    · exact never.elim
  · rintro (rfl | rfl)
    · exact .inl rfl
    · exact .inr ⟨true, .inl rfl⟩

theorem replyKey_of_fire (task : DelayedTask) : Asks (I := interface)
    (fun r => ∀ x, r = .start x → x.replyKey = Key.deferredReply task.service task.fireAt)
    (Deferred.fire s task).run := by
  refine asks_fire task nofun (fun _ => nofun) nofun fun b payload => ?_
  rintro _ ⟨⟩
  rfl

theorem comes_fire (task : DelayedTask) (ready : s.sources ≠ []) :
    ∃ x, Comes (I := interface) (.start x) (Deferred.fire s task).run := by
  obtain ⟨source, others, listed⟩ := List.exists_cons_of_ne_nil ready
  have found : s.brokerOf source.name = some source.broker := by
    simp [Shared.brokerOf, listed]
  refine ⟨?_, .inr ⟨some ⟨none, source.name⟩, ?_⟩⟩
  · exact ⟨source.broker, task.service, [1], Key.deferredReply task.service task.fireAt,
      s.config.replyTtl⟩
  · dsimp only [Program.bind]
    rw [Option.bind_some, found]
    exact .inr ⟨.ok (some [1]), .inl rfl⟩

theorem key_of_routine (x : Execution) : Asks (I := interface)
    (fun r => ∀ b key frame ttl, r = .broker b (.pushReply key frame ttl) → key = x.replyKey)
    x.routine := by
  refine x.asks_routine nofun (fun _ => nofun) fun frame => ?_
  rintro b key frame ttl ⟨⟩
  rfl

theorem comes_routine (x : Execution) : ∃ frame ttl,
    Comes (I := interface) (.broker x.broker (.pushReply x.replyKey frame ttl)) x.routine :=
  ⟨_, _, .inr ⟨none, .inl rfl⟩⟩

end

structure Field where
  key : String
  name : String

namespace Field

def of (service : String) (t : FireTime) : Field := ⟨Key.delay service, Decimal.ofInt64 t⟩

theorem of_injective {service service' : String} {t t' : FireTime}
    (h : of service t = of service' t') : service = service' ∧ t = t' := by
  obtain ⟨keys, names⟩ := Field.mk.inj h
  exact ⟨Key.delay_injective keys, Decimal.ofInt64_injective names⟩

end Field

section

variable (s : Shared) (service : String) (a : Instant) (payload : Bytes) (timeout : Duration)

/-- A node that is handed the entry of an errand may ask for this. -/
def Errand.Leads (o : Errand) (r : Effect) : Prop :=
  ∃ queue e n id s' b, o.Reaches s service a (.append queue e n) ∧
    Comes (I := interface) r (Dispatch.route s' b (handed queue e id))

def Fills (field : Field) : Prop :=
  ∃ b, (Errand.schedule payload).Leads s service a (.broker b (.hashSet field.key field.name payload))

def Clears (field : Field) : Prop :=
  ∃ b, Errand.cancel.Leads s service a (.broker b (.hashDelete field.key field.name))

/-- The entry of a deferred call is tracked as a task, and the run of this task is answered here. -/
def Replies (key : String) : Prop :=
  ∃ task s' x b frame ttl, (Errand.schedule payload).Leads s service a (.pending (.insert task)) ∧
    Comes (I := interface) (.start x) (Deferred.fire s' task).run ∧
      Comes (I := interface) (.broker b (.pushReply key frame ttl)) x.routine

def Awaits (key : String) : Prop := (Errand.await timeout).Reaches s service a (.popReply key timeout)

variable {s service a payload timeout} {t : FireTime}

theorem Errand.leads_iff {o : Errand} {entry : FireTime → Envelope} {r : Effect}
    (ready : s.sources ≠ []) (filled : o.filled)
    (sends : ∀ t, o.call s service t = .append service (entry t) s.config.maxQueueLength) :
    o.Leads s service a r ↔ ∃ t id s' b, a.fireTime = .ok t ∧
      Comes (I := interface) r (Dispatch.route s' b (handed service (entry t) id)) := by
  constructor
  · rintro ⟨queue, e, n, id, s', b, reaches, comes⟩
    obtain ⟨t, fits, same⟩ := (reaches_iff ready filled).mp reaches
    rw [sends] at same
    cases same
    exact ⟨t, id, s', b, fits, comes⟩
  · rintro ⟨t, id, s', b, fits, comes⟩
    have reaches := (reaches_iff ready filled).mpr ⟨t, fits, (sends t).symm⟩
    exact ⟨service, entry t, _, id, s', b, reaches, comes⟩

theorem schedule_leads_iff (ready : s.sources ≠ []) (filled : payload ≠ []) {r : Effect} :
    (Errand.schedule payload).Leads s service a r ↔ ∃ t, a.fireTime = .ok t ∧
      ((∃ b, r = .broker b (.hashSet (Key.delay service) (Decimal.ofInt64 t) payload)) ∨
        r = .pending (.insert ⟨t, service⟩)) := by
  rw [Errand.leads_iff (o := .schedule payload) ready filled fun _ => rfl]
  simp only [comes_route_deferred filled]
  constructor
  · rintro ⟨t, -, -, b, fits, made⟩
    exact ⟨t, fits, made.imp_left fun same => ⟨b, same⟩⟩
  · rintro ⟨t, fits, ⟨b, rfl⟩ | rfl⟩
    · exact ⟨t, "", s, b, fits, .inl rfl⟩
    · exact ⟨t, "", s, 0, fits, .inr rfl⟩

theorem cancel_leads_iff (ready : s.sources ≠ []) {r : Effect} :
    Errand.cancel.Leads s service a r ↔ ∃ t, a.fireTime = .ok t ∧
      (r = .pending (.erase ⟨t, service⟩) ∨
        ∃ b, r = .broker b (.hashDelete (Key.delay service) (Decimal.ofInt64 t))) := by
  rw [Errand.leads_iff (o := .cancel) ready trivial fun _ => rfl]
  simp only [comes_route_tombstone]
  constructor
  · rintro ⟨t, -, -, b, fits, made⟩
    exact ⟨t, fits, made.imp_right fun same => ⟨b, same⟩⟩
  · rintro ⟨t, fits, rfl | ⟨b, rfl⟩⟩
    · exact ⟨t, "", s, 0, fits, .inl rfl⟩
    · exact ⟨t, "", s, b, fits, .inr rfl⟩

theorem fills_iff (ready : s.sources ≠ []) (filled : payload ≠ []) {field : Field} :
    Fills s service a payload field ↔ ∃ t, a.fireTime = .ok t ∧ field = .of service t := by
  constructor
  · rintro ⟨b, leads⟩
    obtain ⟨t, fits, ⟨b', same⟩ | other⟩ := (schedule_leads_iff ready filled).mp leads
    · cases field
      cases same
      exact ⟨t, fits, rfl⟩
    · cases other
  · rintro ⟨t, fits, rfl⟩
    exact ⟨0, (schedule_leads_iff ready filled).mpr ⟨t, fits, .inl ⟨0, rfl⟩⟩⟩

theorem clears_iff (ready : s.sources ≠ []) {field : Field} :
    Clears s service a field ↔ ∃ t, a.fireTime = .ok t ∧ field = .of service t := by
  constructor
  · rintro ⟨b, leads⟩
    obtain ⟨t, fits, other | ⟨b', same⟩⟩ := (cancel_leads_iff ready).mp leads
    · cases other
    · cases field
      cases same
      exact ⟨t, fits, rfl⟩
  · rintro ⟨t, fits, rfl⟩
    exact ⟨0, (cancel_leads_iff ready).mpr ⟨t, fits, .inr ⟨0, rfl⟩⟩⟩

theorem replies_iff (ready : s.sources ≠ []) (filled : payload ≠ []) {key : String} :
    Replies s service a payload key ↔ ∃ t, a.fireTime = .ok t ∧ key = Key.deferredReply service t := by
  constructor
  · rintro ⟨task, s', x, b, frame, ttl, leads, starts, pushes⟩
    obtain ⟨t, fits, ⟨b', other⟩ | same⟩ := (schedule_leads_iff ready filled).mp leads
    · cases other
    · cases same
      have pushed : key = x.replyKey := (key_of_routine x).of_comes pushes b key frame ttl rfl
      exact ⟨t, fits, pushed.trans ((replyKey_of_fire _).of_comes starts x rfl)⟩
  · rintro ⟨t, fits, rfl⟩
    obtain ⟨x, starts⟩ := comes_fire (s := s) ⟨t, service⟩ ready
    obtain ⟨frame, ttl, pushes⟩ := comes_routine x
    have addressed : x.replyKey = Key.deferredReply service t :=
      (replyKey_of_fire _).of_comes starts x rfl
    rw [addressed] at pushes
    exact ⟨⟨t, service⟩, s, x, x.broker, frame, ttl,
      (schedule_leads_iff ready filled).mpr ⟨t, fits, .inr rfl⟩, starts, pushes⟩

theorem awaits_iff (ready : s.sources ≠ []) {key : String} :
    Awaits s service a timeout key ↔ ∃ t, a.fireTime = .ok t ∧ key = Key.deferredReply service t := by
  refine (Errand.reaches_iff (o := .await timeout) ready trivial).trans ?_
  refine exists_congr fun t => and_congr_right fun _ => ⟨?_, ?_⟩
  · rintro ⟨⟩
    rfl
  · rintro rfl
    rfl

end

section

variable {σ : Type}

def Timely (serve : interface.Service σ) (c : Call) : Prop :=
  ∀ v b reason v', ¬ serve v (.broker b c) (.error (.invalidFireTime reason)) v'

def Accepts {α : Type} (serve : interface.Service σ) (p : Attempt α) : Prop :=
  ∀ v reason v', ¬ Runs serve p.run v (.error (.invalidFireTime reason)) v'

variable {serve : interface.Service σ} {s : Shared} {service : String} {b : BrokerId} {t : FireTime}

theorem Accepts.bind {α β : Type} {p : Attempt α} {f : α → Attempt β} (first : Accepts serve p)
    (next : ∀ a, Accepts serve (f a)) : Accepts serve (p >>= f) := by
  intro v reason v' run
  rcases Runs.bindExcept_iff.mp run with ⟨a, v₁, -, run⟩ | ⟨e, run, same⟩
  · exact next a v₁ reason v' run
  · cases same
    exact first v reason v' run

theorem Accepts.return {α : Type} (a : α) : Accepts serve (return a) := by
  rintro v reason v' ⟨same, -⟩
  cases same

theorem timely_noting (routes : String → Option Route) (o : Errand) :
    Timely (Noting routes) (o.call s service t) := by
  rintro ms b reason ms' ⟨h, now, h', does, -⟩
  have transport : (Error.invalidFireTime reason).isTransport = true := by
    cases o with
    | schedule payload => exact (does_append_error does).1
    | cancel => exact (does_append_error does).1
    | await timeout => exact popReply_error does
  cases transport

theorem accepts_brokerFor : Accepts serve (brokerFor s service) := by
  intro v reason v'
  rw [brokerFor_eq]
  rintro ⟨route, _, -, failed, -⟩
  rcases Shared.located_error failed.symm with same | ⟨text, same⟩ <;> cases same

theorem accepts_requirePayload (payload : Bytes) : Accepts serve (requirePayload service payload) := by
  intro v reason v'
  rw [requirePayload_eq]
  rintro ⟨failed, -⟩
  split at failed <;> cases failed

theorem accepts_enqueue {e : Envelope}
    (timely : Timely serve (.append e.service e s.config.maxQueueLength)) :
    Accepts serve (enqueue s b e) := by
  intro v reason v' run
  have tried := Retry.tried_of_program (Runs.expand_iff.mp run)
  refine tried.comes (P := fun _ => True) (Q := fun r _ => r ≠ .error (.invalidFireTime reason))
    ?_ (fun _ _ _ => trivial) (fun _ _ _ _ _ => trivial) (fun _ _ _ _ _ _ => trivial) trivial rfl
  rintro v r v' - attempt rfl
  exact timely v b reason v' (Runs.request_iff.mp attempt)

theorem accepts_awaitReply {key : String} {timeout : Duration}
    (timely : Timely serve (.popReply key timeout)) :
    Accepts serve (onBrokerAttempt b (Broker.awaitReply key timeout)) := by
  intro v reason v'
  rw [awaitReply_eq]
  rintro ⟨popped, v₁, served, failed, -⟩
  cases popped with
  | error e =>
    cases failed
    exact timely v b reason v₁ served
  | ok popped =>
    cases popped with
    | none => cases failed
    | some frame =>
      unfold received at failed
      dsimp only at failed
      cases decoded : Reply.decode frame with
      | error e =>
        rw [decoded] at failed
        cases failed
        cases decode_error decoded
      | ok reply =>
        rw [decoded] at failed
        cases reply <;> cases failed

theorem accepts_rest {o : Errand} (timely : Timely serve (o.call s service t)) :
    Accepts serve (o.rest s service t b) := by
  cases o with
  | schedule payload =>
    refine .bind (accepts_requirePayload payload) fun _ => ?_
    exact .bind (accepts_enqueue timely) fun _ => .return t
  | cancel => exact .bind (accepts_enqueue timely) fun _ => .return ()
  | await timeout => exact accepts_awaitReply timely

theorem Errand.fails_iff {o : Errand} {a : Instant} {v v' : σ} {r : Except Error o.Value}
    (timely : ∀ t, Timely serve (o.call s service t))
    (run : Runs serve (o.program s service a).run v r v') :
    (∃ reason, r = .error (.invalidFireTime reason)) ↔ a.Unfit := by
  rcases a.exists_fireTime with ⟨unfit, reason, refused⟩ | ⟨fit, t, fits⟩
  · rw [program_of_error refused] at run
    exact ⟨fun _ => unfit, fun _ => ⟨reason, run.1⟩⟩
  · rw [program_of_ok fits] at run
    refine ⟨?_, fun unfit => absurd unfit fit⟩
    rintro ⟨reason, rfl⟩
    exact (Accepts.bind accepts_brokerFor (fun b => accepts_rest (timely t)) v reason v' run).elim

end

section

variable {α : Type} {place : String → FireTime → α} {service service' : String} {a b : Instant}
  {t : FireTime}

theorem exists_place_iff : (∃ x, ∃ t, a.fireTime = .ok t ∧ x = place service t) ↔ ¬ a.Unfit := by
  rw [← Instant.exists_fireTime_iff]
  constructor
  · rintro ⟨_, t, fits, -⟩
    exact ⟨t, fits⟩
  · rintro ⟨t, fits⟩
    exact ⟨_, t, fits, rfl⟩

theorem same_place_iff (apart : ∀ {service service' t t'}, place service t = place service' t' →
    service = service' ∧ t = t') (fits : a.fireTime = .ok t) :
    (∃ u, b.fireTime = .ok u ∧ place service t = place service' u) ↔ service = service' ∧ a = b := by
  constructor
  · rintro ⟨u, fits', same⟩
    obtain ⟨rfl, rfl⟩ := apart same
    exact ⟨rfl, Instant.eq_of_fireTime fits fits'⟩
  · rintro ⟨rfl, rfl⟩
    exact ⟨t, fits, rfl⟩

end

/-- What two nodes make of two instants, where one schedules and the other cancels or awaits. -/
structure Agreed (s s' : Shared) (service service' : String) (a b : Instant) : Prop where
  filled : ∀ {payload}, s.sources ≠ [] → payload ≠ [] →
    ((∃ field, Fills s service a payload field) ↔ ¬ a.Unfit)
  cleared : ∀ {payload field}, s.sources ≠ [] → s'.sources ≠ [] → payload ≠ [] →
    Fills s service a payload field → (Clears s' service' b field ↔ service = service' ∧ a = b)
  replied : ∀ {payload}, s.sources ≠ [] → payload ≠ [] →
    ((∃ key, Replies s service a payload key) ↔ ¬ a.Unfit)
  awaited : ∀ {payload timeout key}, s.sources ≠ [] → s'.sources ≠ [] → payload ≠ [] →
    Replies s service a payload key → (Awaits s' service' b timeout key ↔ service = service' ∧ a = b)
  refused : ∀ o : Errand, a.Unfit ↔
    ∃ reason, (o.program s service a).run = .done (.error (.invalidFireTime reason))
  fails : ∀ {σ : Type} {serve : interface.Service σ} {o : Errand} {v r v'},
    (∀ t, Timely serve (o.call s service t)) → Runs serve (o.program s service a).run v r v' →
      ((∃ reason, r = .error (.invalidFireTime reason)) ↔ a.Unfit)
  timely : ∀ routes (o : Errand) t, Timely (Noting routes) (o.call s service t)
  fit : (∃ t, a.fireTime = .ok t) ↔ ¬ a.Unfit
  exact : ∀ {t}, a.fireTime = .ok t → t.toInt = a.nanos
  monotone : ∀ {t u}, a.fireTime = .ok t → b.fireTime = .ok u → (t < u ↔ a.nanos < b.nanos)

/-- Those who schedule, cancel and await deferred calls mean the same call just when they were given the
same instant, and are refused before they ask anything just when it has no fire time. -/
theorem errands_agreed (s s' : Shared) (service service' : String) (a b : Instant) :
    Agreed s s' service service' a b where
  filled ready payload := by
    simp only [fills_iff ready payload]
    exact exists_place_iff
  cleared ready ready' payload fills := by
    obtain ⟨t, fits, rfl⟩ := (fills_iff ready payload).mp fills
    rw [clears_iff ready']
    exact same_place_iff Field.of_injective fits
  replied ready payload := by
    simp only [replies_iff ready payload]
    exact exists_place_iff
  awaited ready ready' payload replies := by
    obtain ⟨t, fits, rfl⟩ := (replies_iff ready payload).mp replies
    rw [awaits_iff ready']
    exact same_place_iff Key.deferredReply_injective fits
  refused o := by
    rcases a.exists_fireTime with ⟨unfit, reason, refused⟩ | ⟨fit, t, fits⟩
    · exact ⟨fun _ => ⟨reason, Errand.program_of_error refused⟩, fun _ => unfit⟩
    · refine ⟨fun unfit => absurd unfit fit, ?_⟩
      rintro ⟨reason, refused⟩
      rw [Errand.program_of_ok fits, ExceptT.run_bind, brokerFor_eq] at refused
      cases refused
  fails := Errand.fails_iff
  timely routes o _ := timely_noting routes o
  fit := Instant.exists_fireTime_iff
  exact fits := (Instant.fireTime_eq_ok_iff.mp fits).2
  monotone := Instant.fireTime_lt_iff

end Node
end BrokeredCalls
