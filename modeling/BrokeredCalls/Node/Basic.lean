import BrokeredCalls.Node.Dispatch
import BrokeredCalls.Node.Execution

/-!
A node: calls to services by name, at once or deferred, and the loops that serve those hosted here.
-/

namespace BrokeredCalls.Node

def brokerFor (s : Shared) (service : String) : Attempt BrokerId := do
  match ← ExceptT.lift (ask (.resolve service)) with
  | none => throw (.serviceNotFound service)
  | some route =>
    match s.brokerOf route.source with
    | some b => return b
    | none =>
      throw (.missingConfig ("no broker for data source " ++ route.source ++ " of " ++ service))

def requirePayload (service : String) (payload : Bytes) : Attempt Unit :=
  if payload.isEmpty then throw (.emptyPayload service) else return ()

def serveRetry (s : Shared) (b : BrokerId) (e : Envelope) :
    (r : Retry.Request String) → Routine ((Retry.interface String).Answer r)
  | .attempt => ask (.broker b (.append e.service e s.config.maxQueueLength))
  | .draw => ask .draw
  | .wait _ length => ask (.sleep length)
  | .abort why => ask (.abort why)

def enqueue (s : Shared) (b : BrokerId) (e : Envelope) : Attempt String :=
  ExceptT.mk ((Retry.program s.config.retry).expand (serveRetry s b e))

def callWithTimeout (s : Shared) (service : String) (payload : Bytes) (timeout : Duration) :
    Attempt Bytes := do
  let b ← brokerFor s service
  requirePayload service payload
  let id ← enqueue s b (.immediate service payload)
  onBrokerAttempt b (Broker.awaitReply (Key.reply service id) timeout)

def call (s : Shared) (service : String) (payload : Bytes) : Attempt Bytes :=
  callWithTimeout s service payload s.config.callTimeout

def request {α : Type} (s : Shared) (service : String) (request : Except Error Bytes)
    (read : Bytes → Except Error α) : Attempt α := do
  let bytes ← request
  let answer ← call s service bytes
  read answer

def fireTime (instant : Instant) : Attempt FireTime := instant.fireTime

def scheduleAt (s : Shared) (service : String) (instant : Instant) (payload : Bytes) :
    Attempt FireTime := do
  let t ← fireTime instant
  let b ← brokerFor s service
  requirePayload service payload
  let _ ← enqueue s b (.deferred service t payload)
  return t

def scheduleRequestAt (s : Shared) (service : String) (instant : Instant)
    (request : Except Error Bytes) : Attempt FireTime := do
  let bytes ← request
  scheduleAt s service instant bytes

def cancel (s : Shared) (service : String) (instant : Instant) : Attempt Unit := do
  let t ← fireTime instant
  let b ← brokerFor s service
  let _ ← enqueue s b (.tombstone service t)
  return ()

def awaitScheduled (s : Shared) (service : String) (instant : Instant) (timeout : Duration) :
    Attempt Bytes := do
  let t ← fireTime instant
  let b ← brokerFor s service
  onBrokerAttempt b (Broker.awaitReply (Key.deferredReply service t) timeout)

def provisionAll (s : Shared) : List Source → Attempt (List (Source × List String))
  | [] => return []
  | source :: rest => do
    let services ← ExceptT.lift (ask (.servicesOn source.name))
    if services.isEmpty then provisionAll s rest
    else
      Dispatch.provision s source.broker services
      return (source, services) :: (← provisionAll s rest)

/-- The fire loop comes first, then one dispatch loop for each source that hosts services. -/
def startWorkers (s : Shared) : Attempt Unit := do
  let served ← provisionAll s s.sources
  let _ ← Deferred.reload s
  let stop ← ExceptT.lift (ask .subscribe)
  let now ← ExceptT.lift (ask .clock)
  ExceptT.lift (ask (.launch (.fire stop now ::
    served.map fun (source, services) =>
      .dispatch source.broker source.consumer services stop)))

/-- Starts serving, once. A start that fails leaves the node as it was. -/
def spawn (s : Shared) : Attempt Unit := do
  if !(← ExceptT.lift (ask .claimSpawn)) then throw (.configConflict "node already spawned")
  match ← ExceptT.lift (startWorkers s).run with
  | .ok () => return ()
  | .error e => do
    ExceptT.lift (ask .releaseSpawn)
    throw e

def closeAll : List Source → Routine Unit
  | [] => return ()
  | source :: rest => do
    let _ ← ask (.broker source.broker .close)
    closeAll rest

/-- Stops the loops, waits for them, then closes every broker, even after one that fails to close. -/
def shutdown (s : Shared) : Routine Unit := do
  ask .raiseStop
  ask .joinWorkers
  closeAll s.sources

def Loop.round (s : Shared) : Loop → Routine (Option Loop)
  | .dispatch b consumer services stop => Dispatch.round s b consumer services stop
  | .fire stop lastResync => Deferred.round s stop lastResync

end BrokeredCalls.Node
