import BrokeredCalls.Broker.Group
import BrokeredCalls.Node.Deferred

/-!
The dispatch loop of one broker: read a batch, acknowledge it queue by queue, then route each entry by
its kind. An entry is acknowledged before anything is done with it, so it is acted on at most once.
-/

namespace BrokeredCalls.Node.Dispatch

/-- The queues of a batch, each once, with their ids in the order of delivery. -/
def idsByQueue : List Delivery → List (String × List String)
  | [] => []
  | d :: ds =>
    let rest := idsByQueue ds
    match rest.find? fun e => e.1 = d.queue with
    | some (_, ids) => (d.queue, d.id :: ids) :: rest.filter fun e => e.1 ≠ d.queue
    | none => (d.queue, [d.id]) :: rest

/-- A failed acknowledgement changes nothing for the rest. -/
def acknowledgeAll (b : BrokerId) (group : String) : List (String × List String) → Routine Unit
  | [] => return ()
  | (queue, ids) :: rest => do
    let _ ← ask (.broker b (.acknowledge queue group ids))
    acknowledgeAll b group rest

/-- A deferred call or tombstone that fails is dropped, like every failure after delivery. -/
def route (s : Shared) (b : BrokerId) (d : Delivery) : Routine Unit := do
  let e := d.envelope
  if e.isPlaceholder then return ()
  match e.fireAt with
  | some t =>
    let _ ← (if e.isTombstone then Deferred.remove b e.service t
      else Deferred.add b e.service t e.payload).run
    return ()
  | none => ask (.start
      { broker := b
        service := e.service
        payload := e.payload
        replyKey := Key.reply e.service d.id
        replyTtl := s.config.replyTtl })

def routeAll (s : Shared) (b : BrokerId) : List Delivery → Routine Unit
  | [] => return ()
  | d :: ds => do
    route s b d
    routeAll s b ds

/-- Backs off after a failure; false once nobody is left to stop the loop. -/
def pause (s : Shared) (stop : SignalId) : Routine Bool := do
  match ← ask (.pauseUnlessStopped s.config.loopBackoff stop) with
  | .abandoned => return false
  | .value _ | .raised => return true

def handle (s : Shared) (b : BrokerId) (stop : SignalId) :
    Except Error (List Delivery) → Routine Bool
  | .ok batch => do
    acknowledgeAll b s.config.group (idsByQueue batch)
    routeAll s b batch
    return true
  | .error (.missingQueue queue) => do
    match ← (onBrokerAttempt b (Broker.ensureGroup queue s.config.group)).run with
    | .ok () => return true
    | .error _ => pause s stop
  | .error _ => pause s stop

def round (s : Shared) (b : BrokerId) (consumer : String) (services : List String)
    (stop : SignalId) : Routine (Option Loop) := do
  if ← ask (.isRaised stop) then return none
  let again := Loop.dispatch b consumer services stop
  match ← ask (.readUnlessStopped b s.config.group consumer services s.config.readCount
      s.config.readBlock stop) with
  | .abandoned => return none
  | .raised => return some again
  | .value result => return if ← handle s b stop result then some again else none

def provision (s : Shared) (b : BrokerId) : List String → Attempt Unit
  | [] => return ()
  | service :: rest => do
    onBrokerAttempt b (Broker.ensureGroup service s.config.group)
    provision s b rest

end BrokeredCalls.Node.Dispatch
