import BrokeredCalls.Key
import BrokeredCalls.Node.Effect

/-!
Deferred calls. The durable hash of a service is what counts; the pending list is this process's own
copy of it, in firing order. A due task is claimed by taking its field from the hash, so of all
processes that hold it one executes it.
-/

namespace BrokeredCalls.Node

def access (a : TaskQueue.Access) : Attempt a.Value := ExceptT.lift (ask (.pending a))

def callOn (b : BrokerId) (c : Broker.Call) : Attempt c.Value := ExceptT.mk (ask (.broker b c))

namespace Deferred

def add (b : BrokerId) (service : String) (t : FireTime) (payload : Bytes) : Attempt Unit := do
  callOn b (.hashSet (Key.delay service) (Decimal.ofInt64 t) payload)
  let _ ← access (.insert ⟨t, service⟩)
  return ()

/-- Forgets a deferred call, then deletes it; one that is unknown or has fired makes no difference. -/
def remove (b : BrokerId) (service : String) (t : FireTime) : Attempt Unit := do
  let _ ← access (.erase ⟨t, service⟩)
  callOn b (.hashDelete (Key.delay service) (Decimal.ofInt64 t))

def tasksOf (service : String) (fields : List String) : List DelayedTask :=
  fields.filterMap fun f => (Decimal.int64? f).map fun t => ⟨t, service⟩

def scanServices (b : BrokerId) : List String → Attempt (List DelayedTask)
  | [] => return []
  | s :: rest => do
    let fields ← callOn b (.hashFields (Key.delay s))
    return tasksOf s fields ++ (← scanServices b rest)

def scan : List Source → Attempt (List DelayedTask)
  | [] => return []
  | source :: rest => do
    let services ← ExceptT.lift (ask (.servicesOn source.name))
    let found ← scanServices source.broker services
    return found ++ (← scan rest)

/-- Makes the pending list what the hashes say; answers how many tasks that is. -/
def reload (s : Shared) : Attempt Nat := do access (.replace (← scan s.sources))

/-- Adds what the hashes hold and drops nothing. -/
def resync (s : Shared) : Attempt Unit := do access (.merge (← scan s.sources))

inductive Step where
  | fire (t : DelayedTask)
  | sleep (d : Duration)
  deriving DecidableEq, Repr

/-- Sleeps to the next fire time, but never longer than the poll interval. -/
def Step.of (poll : Duration) (now : FireTime) : TaskQueue.Next → Step
  | .due t => fire t
  | .later t => sleep (min ⟨(t.fireAt - now).toInt.toNat⟩ poll)
  | .nothing => sleep poll

def nextStep (s : Shared) : Routine Step := do
  let now ← ask .reading
  return Step.of s.config.pollInterval now (← ask (.pending (.next now)))

def brokerFor (s : Shared) (service : String) : Routine (Option BrokerId) := do
  return (← ask (.resolve service)).bind fun route => s.brokerOf route.source

/-- Claims a due task and starts its execution. If the claim fails the task is tracked again; if
there is nothing to claim it was cancelled, or claimed elsewhere. -/
def fire (s : Shared) (t : DelayedTask) : Attempt Unit := do
  match ← ExceptT.lift (brokerFor s t.service) with
  | none => return ()
  | some b =>
    match ← ExceptT.lift (ask (.broker b (.hashTake (Key.delay t.service) (Decimal.ofInt64 t.fireAt)))) with
    | .error e => do
      let _ ← access (.insert t)
      throw e
    | .ok none | .ok (some []) => return ()
    | .ok (some payload) => ExceptT.lift (ask (.start
        { broker := b
          service := t.service
          payload := payload
          replyKey := Key.deferredReply t.service t.fireAt
          replyTtl := s.config.replyTtl }))

def resyncDue (s : Shared) (lastResync now : Nat) : Bool :=
  match s.config.reloadInterval with
  | some every => every.nanos ≤ now - lastResync
  | none => false

/-- The pause after a step: none at all after a task was dealt with. -/
def pauseAfter (s : Shared) : Step → Routine (Option Duration)
  | .sleep d => return some d
  | .fire t => do
    match ← (fire s t).run with
    | .ok () => return none
    | .error _ => return some s.config.loopBackoff

def round (s : Shared) (stop : SignalId) (lastResync : Nat) : Routine (Option Loop) := do
  if ← ask (.isRaised stop) then return none
  let now ← ask .clock
  let due := resyncDue s lastResync now
  if due then
    let _ ← (resync s).run
  let again := Loop.fire stop (if due then now else lastResync)
  match ← pauseAfter s (← nextStep s) with
  | none => return some again
  | some d =>
    match ← ask (.pauseUnlessStopped d stop) with
    | .abandoned => return none
    | .value _ | .raised => return some again

end Deferred
end BrokeredCalls.Node
