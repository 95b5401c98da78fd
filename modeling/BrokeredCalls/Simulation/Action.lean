import BrokeredCalls.Simulation.Effects
import BrokeredCalls.Simulation.Workload

namespace BrokeredCalls.Simulation

inductive Action where
  | call (b : BrokerId) (c : Broker.Call)
  | ensureGroup (b : BrokerId) (queue group : String)
  | awaitReply (b : BrokerId) (key : String) (timeout : Duration)
  | deliver (b : BrokerId) (key : String) (reply : Reply) (ttl : Duration)
  | sleep (d : Duration)
  | invoke (r : RegistryId) (service : String) (payload : Bytes)
  | execute (r : RegistryId) (service : String) (payload : Bytes)
  | spawn (p : ProcessId)
  | shutdown (p : ProcessId)
  | callService (p : ProcessId) (service : String) (payload : Bytes) (timeout : Option Duration)
  | requestValue (p : ProcessId) (service : String) (request : Except Error Bytes)
  | requestRecord (p : ProcessId) (service : String) (request : Except Error Bytes)
  | scheduleAt (p : ProcessId) (service : String) (instant : Instant) (payload : Bytes)
  | scheduleRequestAt (p : ProcessId) (service : String) (instant : Instant)
      (request : Except Error Bytes)
  | cancel (p : ProcessId) (service : String) (instant : Instant)
  | awaitScheduled (p : ProcessId) (service : String) (instant : Instant) (timeout : Duration)
  | reload (p : ProcessId)
  | addDeferred (p : ProcessId) (b : BrokerId) (service : String) (t : FireTime) (payload : Bytes)
  | removeDeferred (p : ProcessId) (b : BrokerId) (service : String) (t : FireTime)

namespace Action

abbrev Value : Action → Type
  | call _ c => Except Error c.Value
  | awaitReply .. | callService .. | awaitScheduled .. => Except Error Bytes
  | deliver .. | sleep _ | shutdown _ => Unit
  | invoke .. => Option (Except Error Bytes)
  | execute .. => Reply
  | requestValue .. => Except Error Json
  | requestRecord .. => Except Error Int64
  | scheduleAt .. | scheduleRequestAt .. => Except Error FireTime
  | reload _ => Except Error Nat
  | ensureGroup .. | spawn _ | cancel .. | addDeferred .. | removeDeferred .. => Except Error Unit

def holds : Action → Option ProcessId
  | spawn p | shutdown p | callService p _ _ _ | requestValue p _ _ | requestRecord p _ _
  | scheduleAt p _ _ _ | scheduleRequestAt p _ _ _ | cancel p _ _ | awaitScheduled p _ _ _
  | reload p => some p
  | _ => none

def invokeRoutine (service : String) (payload : Bytes) :
    Node.Routine (Option (Except Error Bytes)) := do
  match (← Node.ask (.resolve service)).bind (·.handler) with
  | some h => return some (← Node.ask (.invoke service h payload))
  | none => return none

def work : (a : Action) → Work a.Value
  | call b c => serveCall b c
  | ensureGroup b queue group => onHandle b (Broker.ensureGroup queue group).run
  | awaitReply b key timeout => onHandle b (Broker.awaitReply key timeout).run
  | deliver b key reply ttl => onHandle b (Broker.deliver key reply ttl)
  | sleep d => ask (.rest d)
  | invoke r service payload => inRegistry r (invokeRoutine service payload)
  | execute r service payload => inRegistry r (Node.execute service payload)
  | spawn p => inProcess p fun s => (Node.spawn s).run
  | shutdown p => inProcess p Node.shutdown
  | callService p service payload timeout => inProcess p fun s =>
    match timeout with
    | some d => (Node.callWithTimeout s service payload d).run
    | none => (Node.call s service payload).run
  | requestValue p service request => inProcess p fun s =>
    (Node.request s service request Workload.readValue).run
  | requestRecord p service request => inProcess p fun s =>
    (Node.request s service request Workload.readRecord).run
  | scheduleAt p service instant payload => inProcess p fun s =>
    (Node.scheduleAt s service instant payload).run
  | scheduleRequestAt p service instant request => inProcess p fun s =>
    (Node.scheduleRequestAt s service instant request).run
  | cancel p service instant => inProcess p fun s => (Node.cancel s service instant).run
  | awaitScheduled p service instant timeout => inProcess p fun s =>
    (Node.awaitScheduled s service instant timeout).run
  | reload p => inProcess p fun s => (Node.Deferred.reload s).run
  | addDeferred p b service t payload => inProcess p fun _ =>
    (Node.Deferred.add b service t payload).run
  | removeDeferred p b service t => inProcess p fun _ =>
    (Node.Deferred.remove b service t).run

end Action

abbrev Result := (a : Action) × a.Value

end BrokeredCalls.Simulation
