import BrokeredCalls.Node.Basic
import BrokeredCalls.Simulation.Request

/-!
How the requests of node programs are carried out in the simulated world: calls go through the probe of
their handle, a handler's run is recorded and takes its time.
-/

namespace BrokeredCalls.Simulation

def serveCall (b : BrokerId) (c : Broker.Call) : Work (Except Error c.Value) := do
  match ← ask (.note b c) with
  | some e => return .error e
  | none => ask (.serve b c)

def serveCallUnlessStopped (b : BrokerId) (c : Broker.Call) (stop : SignalId) :
    Work (Node.Ended (Except Error c.Value)) := do
  match ← ask (.note b c) with
  | some e => return .value (.error e)
  | none => ask (.serveUnlessStopped b c stop)

def joinAll : List TaskId → Work Unit
  | [] => return ()
  | t :: ts => do
    ask (.join t)
    joinAll ts

def invoke (service : String) (h : Handler) (payload : Bytes) : Work (Except Error Bytes) := do
  let run := h.run payload
  match run.input with
  | some input => ask (.record service input)
  | none => pure ()
  match run.pace with
  | .atOnce => return run.outcome
  | .after d => do
    ask (.rest d)
    return run.outcome
  | .never => return (← ask .halt).elim

def perform (r : RegistryId) (p : ProcessId) : (e : Node.Effect) → Work e.Answer
  | .broker b c => serveCall b c
  | .readUnlessStopped b group consumer services count block stop =>
    serveCallUnlessStopped b (.readGroup group consumer services count block) stop
  | .pauseUnlessStopped d stop => ask (.restUnlessStopped d stop)
  | .isRaised stop => do return ((← ask .look).signal stop).raised
  | .sleep d => ask (.rest d)
  | .draw => return .middle
  | .reading => do return (← ask .look).now.wall.reading
  | .clock => do return (← ask .look).now.clock
  | .pending a => ask (.access p a)
  | .resolve service => do return ((← ask .look).registry r).resolve service
  | .servicesOn source => do return ((← ask .look).registry r).servicesOn source
  | .invoke service h payload => invoke service h payload
  | .start e => ask (.start (.execution p e))
  | .claimSpawn => do return !(← ask (.markSpawned p true))
  | .releaseSpawn => do
    let _ ← ask (.markSpawned p false)
    return ()
  | .subscribe => do return ((← ask .look).process p).stop
  | .launch loops => ask (.launch p loops)
  | .raiseStop => do ask (.raise ((← ask .look).process p).stop)
  | .joinWorkers => do joinAll (← ask (.takeWorkers p))
  | .abort _ => ask .halt

def inProcess {α : Type} (p : ProcessId) (f : Node.Shared → Node.Routine α) : Work α := do
  let x := (← ask .look).process p
  (f x.shared).expand (perform x.registry p)

def inRegistry {α : Type} (r : RegistryId) (x : Node.Routine α) : Work α :=
  x.expand (perform r 0)

def onHandle {α : Type} (b : BrokerId) (x : Program Broker.interface α) : Work α :=
  x.expand (serveCall b)

end BrokeredCalls.Simulation
