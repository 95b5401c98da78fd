import BrokeredCalls.Proofs.Network.History

/-!
The rules that the programs of a node keep to: what each kind of task may ask for after what it asked
and was answered before.
-/

namespace BrokeredCalls.Network

open Node (Effect Execution Shared)

abbrev Trail := Trace Node.interface

/-- Requests that every task may make at any time: they read no queue, start nothing, leave hashes
and replies alone and add nothing to a pending list. -/
def harmless : Effect → Bool
  | .broker _ (.pushReply ..) | .broker _ (.readGroup ..) => false
  | .broker _ (.hashSet ..) | .broker _ (.hashTake ..) | .broker _ (.hashDelete ..) => false
  | .readUnlessStopped .. | .invoke .. | .start _ => false
  | .pending (.insert _) | .pending (.replace _) | .pending (.merge _) | .pending (.next _) => false
  | _ => true

/-- Harmless requests that track no task: they look at no hash, no pending list and start no loop. -/
def quiet : Effect → Bool
  | .broker _ (.hashFields _) | .pending _ | .launch _ => false
  | r => harmless r

theorem harmless_of_quiet {r : Effect} (h : quiet r = true) : harmless r = true := by
  cases r with
  | broker b c => cases c <;> first | exact h | cases h
  | pending | launch => cases h
  | _ => exact h

def sent : Trail → Option String
  | [] => none
  | ⟨.broker _ (.append ..), .ok id⟩ :: _ => some id
  | _ :: tr => sent tr

inductive Calling (service : String) (payload : Bytes) (tr : Trail) : Effect → Prop
  | resolve (name : String) : Calling service payload tr (.resolve name)
  | draw : Calling service payload tr .draw
  | sleep (d : Duration) : Calling service payload tr (.sleep d)
  | abort (why : Retry.Breakdown) : Calling service payload tr (.abort why)
  | append (b : BrokerId) (n : Nat) (unsent : sent tr = none) :
    Calling service payload tr (.broker b (.append service (.immediate service payload) n))
  | await (b : BrokerId) (id : String) (timeout : Duration) (sent : sent tr = some id) :
    Calling service payload tr (.broker b (.popReply (Key.reply service id) timeout))

def Took (tr : Trail) (reply : Reply) : Prop :=
  ∃ b key timeout frame,
    (⟨.broker b (.popReply key timeout), .ok (some frame)⟩ : Exchange Node.interface) ∈ tr ∧
      Reply.decode frame = .ok reply

def Scanned (tr : Trail) (ts : List DelayedTask) : Prop :=
  ∀ t ∈ ts, ∃ b fields field,
    (⟨.broker b (.hashFields (Key.delay t.service)), .ok fields⟩ : Exchange Node.interface) ∈ tr ∧
      field ∈ fields ∧ Decimal.int64? field = some t.fireAt

inductive Managing (tr : Trail) : Effect → Prop
  | harmless {r : Effect} (h : harmless r = true) : Managing tr r
  | replace (ts : List DelayedTask) (scanned : Scanned tr ts) : Managing tr (.pending (.replace ts))

inductive Altering (service : String) (t : FireTime) (tr : Trail) : Effect → Prop
  | harmless {r : Effect} (h : harmless r = true) : Altering service t tr r
  | write (b : BrokerId) (payload : Bytes) : Altering service t tr
    (.broker b (.hashSet (Key.delay service) (Decimal.ofInt64 t) payload))
  | delete (b : BrokerId) : Altering service t tr
    (.broker b (.hashDelete (Key.delay service) (Decimal.ofInt64 t)))
  | track (b : BrokerId) (payload : Bytes)
    (written : (⟨.broker b (.hashSet (Key.delay service) (Decimal.ofInt64 t) payload), .ok ()⟩ :
      Exchange Node.interface) ∈ tr) : Altering service t tr (.pending (.insert ⟨t, service⟩))

inductive Outcome (e : Execution) (tr : Trail) : Reply → Prop
  | ran (h : Handler) (result : Except Error Bytes)
    (run : (⟨.invoke e.service h e.payload, result⟩ : Exchange Node.interface) ∈ tr) :
    Outcome e tr (.ofResult result)
  | missing (found : Option Route)
    (resolved : (⟨.resolve e.service, found⟩ : Exchange Node.interface) ∈ tr)
    (none : found.bind (·.handler) = none) :
    Outcome e tr (.error (Error.serviceNotFound e.service).message)

inductive Executing (e : Execution) (tr : Trail) : Effect → Prop
  | resolve (first : tr = []) : Executing e tr (.resolve e.service)
  | invoke (h : Handler) (route : Route) (resolved : tr = [⟨.resolve e.service, some route⟩])
    (handler : route.handler = some h) : Executing e tr (.invoke e.service h e.payload)
  | push (reply : Reply) (outcome : Outcome e tr reply)
    (first : ∀ x ∈ tr, ∀ b key value ttl, x.1 ≠ .broker b (.pushReply key value ttl)) :
    Executing e tr (.broker e.broker (.pushReply e.replyKey reply.encode e.replyTtl))

def duty (s : Shared) (b : BrokerId) (d : Delivery) : Option Effect :=
  if d.envelope.isPlaceholder then none
  else match d.envelope.fireAt with
    | some t =>
      let key := Key.delay d.envelope.service
      some (.broker b (if d.envelope.isTombstone then .hashDelete key (Decimal.ofInt64 t)
        else .hashSet key (Decimal.ofInt64 t) d.envelope.payload))
    | none => some (.start
        { broker := b
          service := d.envelope.service
          payload := d.envelope.payload
          replyKey := Key.reply d.envelope.service d.id
          replyTtl := s.config.replyTtl })

def isDuty : Effect → Bool
  | .start _ | .broker _ (.hashSet ..) | .broker _ (.hashDelete ..) => true
  | _ => false

def given : Trail → List Delivery
  | [] => []
  | ⟨.readUnlessStopped .., .value (.ok ds)⟩ :: tr => given tr ++ ds
  | _ :: tr => given tr

def routed : Trail → List Effect
  | [] => []
  | x :: tr => if isDuty x.1 then routed tr ++ [x.1] else routed tr

def duties (s : Shared) (b : BrokerId) (tr : Trail) : List Effect := (given tr).filterMap (duty s b)

inductive Dispatching (s : Shared) (b : BrokerId) (tr : Trail) : Effect → Prop
  | harmless {r : Effect} (h : harmless r = true) : Dispatching s b tr r
  | read (consumer : String) (services : List String) (count : Nat) (block : Duration)
    (stop : SignalId) (idle : duties s b tr = routed tr) :
    Dispatching s b tr (.readUnlessStopped b s.config.group consumer services count block stop)
  | route {r : Effect} (rest : List Effect) (duty : isDuty r = true)
    (next : duties s b tr = routed tr ++ r :: rest) : Dispatching s b tr r
  | track (t : DelayedTask) (payload : Bytes)
    (written : (⟨.broker b (.hashSet (Key.delay t.service) (Decimal.ofInt64 t.fireAt) payload),
      .ok ()⟩ : Exchange Node.interface) ∈ tr) : Dispatching s b tr (.pending (.insert t))

def Due (tr : Trail) (t : DelayedTask) : Prop :=
  ∃ now, (⟨.reading, now⟩ : Exchange Node.interface) ∈ tr ∧
    (⟨.pending (.next now), .due t⟩ : Exchange Node.interface) ∈ tr

inductive Firing (s : Shared) (tr : Trail) : Effect → Prop
  | harmless {r : Effect} (h : harmless r = true) : Firing s tr r
  | merge (ts : List DelayedTask) (scanned : Scanned tr ts) : Firing s tr (.pending (.merge ts))
  | look (now : FireTime) (read : (⟨.reading, now⟩ : Exchange Node.interface) ∈ tr) :
    Firing s tr (.pending (.next now))
  | claim (b : BrokerId) (t : DelayedTask) (due : Due tr t) :
    Firing s tr (.broker b (.hashTake (Key.delay t.service) (Decimal.ofInt64 t.fireAt)))
  | again (t : DelayedTask) (due : Due tr t) : Firing s tr (.pending (.insert t))
  | start (b : BrokerId) (t : DelayedTask) (payload : Bytes) (older : Trail)
    (claimed : tr = ⟨.broker b (.hashTake (Key.delay t.service) (Decimal.ofInt64 t.fireAt)),
      .ok (some payload)⟩ :: older) :
    Firing s tr (.start
      { broker := b
        service := t.service
        payload := payload
        replyKey := Key.deferredReply t.service t.fireAt
        replyTtl := s.config.replyTtl })

def Operation.alters : Operation → Option String
  | .add _ service _ _ | .remove _ service _ => some service
  | _ => none

def Operation.rule : Operation → Trail → Effect → Prop
  | .call service payload _, tr => Calling service payload tr
  | .add _ service t _, tr | .remove _ service t, tr => Altering service t tr
  | _, tr => Managing tr

theorem Calling.isHarmless {service : String} {payload : Bytes} {tr : Trail} {r : Effect}
    (h : Calling service payload tr r) : Network.harmless r = true := by
  cases h <;> rfl

def rule (s : Shared) : Job → Trail → Effect → Prop
  | .operation o, tr => o.rule tr
  | .execution e, tr => Executing e tr
  | .loop (.dispatch b ..), tr => Dispatching s b tr
  | .loop (.fire ..), tr => Firing s tr

inductive Particular (s : Shared) (tr : Trail) : Job → Effect → Prop
  | pending (j : Job) (access : TaskQueue.Access) : Particular s tr j (.pending access)
  | write (o : Operation) (b : BrokerId) (service field : String) (payload : Bytes)
    (alters : o.alters = some service) : Particular s tr (.operation o)
      (.broker b (.hashSet (Key.delay service) field payload))
  | delete (o : Operation) (b : BrokerId) (service field : String)
    (alters : o.alters = some service) : Particular s tr (.operation o)
      (.broker b (.hashDelete (Key.delay service) field))
  | invoke (e : Execution) (h : Handler) :
    Particular s tr (.execution e) (.invoke e.service h e.payload)
  | push (e : Execution) (reply : Reply) (outcome : Outcome e tr reply) : Particular s tr
    (.execution e) (.broker e.broker (.pushReply e.replyKey reply.encode e.replyTtl))
  | read {b : BrokerId} {consumer : String} {services : List String} {stop : SignalId}
    (consumer' : String) (services' : List String) (count : Nat) (block : Duration)
    (stop' : SignalId) : Particular s tr (.loop (.dispatch b consumer services stop))
      (.readUnlessStopped b s.config.group consumer' services' count block stop')
  | route {b : BrokerId} {consumer : String} {services : List String} {stop : SignalId} {r : Effect}
    (duty : isDuty r = true) : Particular s tr (.loop (.dispatch b consumer services stop)) r
  | claim {stop : SignalId} {last : Nat} (b : BrokerId) (t : DelayedTask) (due : Due tr t) :
    Particular s tr (.loop (.fire stop last))
      (.broker b (.hashTake (Key.delay t.service) (Decimal.ofInt64 t.fireAt)))
  | start {stop : SignalId} {last : Nat} (e : Execution) (rule : Firing s tr (.start e)) :
    Particular s tr (.loop (.fire stop last)) (.start e)

theorem altering_cases {s : Shared} {o : Operation} {service : String} {t : FireTime}
    {tr : Trail} {r : Effect} (alters : o.alters = some service) (h : Altering service t tr r) :
    harmless r = true ∨ Particular s tr (.operation o) r := by
  cases h with
  | harmless hh => exact .inl hh
  | write b payload => exact .inr (.write o b service _ payload alters)
  | delete b => exact .inr (.delete o b service _ alters)
  | track => exact .inr (.pending _ _)

theorem rule_cases {s : Shared} {j : Job} {tr : Trail} {r : Effect} (h : rule s j tr r) :
    harmless r = true ∨ Particular s tr j r := by
  cases j with
  | operation o =>
    cases o with
    | call service payload timeout => exact .inl (Calling.isHarmless h)
    | add b service t payload => exact altering_cases rfl h
    | remove b service t => exact altering_cases rfl h
    | _ =>
      have h : Managing tr r := h
      cases h with
      | harmless hh => exact .inl hh
      | replace => exact .inr (.pending _ _)
  | execution e =>
    have h : Executing e tr r := h
    cases h with
    | resolve => exact .inl rfl
    | invoke handler => exact .inr (.invoke e handler)
    | push reply outcome => exact .inr (.push e reply outcome)
  | loop l =>
    cases l with
    | dispatch b consumer services stop =>
      have h : Dispatching s b tr r := h
      cases h with
      | harmless hh => exact .inl hh
      | read => exact .inr (.read _ _ _ _ _)
      | route rest duty => exact .inr (.route duty)
      | track => exact .inr (.pending _ _)
    | fire stop last =>
      have h : Firing s tr r := h
      cases h with
      | harmless hh => exact .inl hh
      | claim b t due => exact .inr (.claim b t due)
      | start b t payload older claimed => exact .inr (.start _ (.start b t payload older claimed))
      | _ => exact .inr (.pending _ _)

/-- A call ends with a reply only if it took it; a loop goes on as itself, with nothing left to do. -/
def ending (s : Shared) : Job → Trail → Ending → Prop
  | .operation o, tr, .result (.call service payload timeout) v =>
    o = .call service payload timeout ∧ ∀ reply, v = reply.toResult → Took tr reply
  | .operation o, _, .result o' _ => o = o'
  | .execution _, _, .nothing => True
  | .loop (.dispatch b _ services _), tr, .again (.dispatch b' _ services' _) =>
    b' = b ∧ services' = services ∧ duties s b tr = routed tr
  | .loop (.fire ..), _, .again (.fire ..) => True
  | .loop _, _, .nothing => True
  | _, _, _ => False

end BrokeredCalls.Network
