import BrokeredCalls.Node.Builder
import BrokeredCalls.Simulation.Tasks

namespace BrokeredCalls.Simulation

variable (s : Simulation)

def setWorld (w : World) : Simulation := { s with world := w }

def openBroker (hub name consumer : String) : BrokerId × Simulation :=
  let (b, w) := s.world.newId
  (b, s.setWorld (w.setHandle b ⟨hub, .new name, consumer, .new⟩))

def addFault (b : BrokerId) (f : Fault) : Simulation :=
  let h := s.world.handle b
  s.setWorld (s.world.setHandle b { h with probe := h.probe.addFault f })

def takeLog (b : BrokerId) : List Broker.Call × Simulation :=
  let h := s.world.handle b
  let (calls, probe) := h.probe.take
  (calls, s.setWorld (s.world.setHandle b { h with probe := probe }))

def deleteQueue (hub queue : String) : Bool × Simulation :=
  let (existed, h) := (s.world.hub hub).deleteQueue queue
  (existed, (s.setWorld (s.world.setHub hub h)).wake [.hub hub])

def newRegistry : RegistryId × Simulation :=
  let (r, w) := s.world.newId
  (r, s.setWorld (w.setRegistry r .empty))

def changeRegistry (r : RegistryId) (f : Registry → Registry) : Simulation :=
  s.setWorld (s.world.setRegistry r (f (s.world.registry r)))

def newProcess (r : RegistryId) (sources : List Node.Source) (config : Config) :
    ProcessId × Simulation :=
  let (stop, w) := s.world.newId
  let (p, w) := w.newId
  (p, s.setWorld ((w.setSignal stop ⟨false, false⟩).setProcess p
    ⟨⟨sources, config⟩, r, .empty, false, stop, [], 1⟩))

def sourceOf (b : BrokerId) : Node.Source :=
  let h := s.world.handle b
  ⟨h.broker.name, b, h.consumer⟩

def buildNode (r : RegistryId) (brokers : List BrokerId) (settings : List Setting) :
    Except Error (ProcessId × Simulation) := do
  let sources := brokers.map s.sourceOf
  let config ← (NodeBuilder.new.applyAll settings).build (sources.map (·.name))
    (s.world.registry r).sources
  return s.newProcess r sources config

/-- Of two sources of one name the later counts. -/
def lastOfEachName : List Node.Source → List Node.Source
  | [] => []
  | x :: xs => if xs.any fun y => y.name = x.name then lastOfEachName xs else x :: lastOfEachName xs

/-- A scheduler of deferred calls by itself; no route is checked. -/
def newScheduler (r : RegistryId) (brokers : List BrokerId) (settings : List Setting) :
    ProcessId × Simulation :=
  s.newProcess r (lastOfEachName (brokers.map s.sourceOf)) (NodeBuilder.new.applyAll settings).finish

def release (p : ProcessId) : Simulation :=
  (s.setWorld (s.world.release p)).wake [.signal (s.world.process p).stop]

def abandonStop (p : ProcessId) : Simulation :=
  let stop := (s.world.process p).stop
  (s.setWorld (s.world.abandon stop)).wake [.signal stop]

def raiseStop (p : ProcessId) : Simulation :=
  let stop := (s.world.process p).stop
  (s.setWorld (s.world.raise stop)).wake [.signal stop]

/-- Starts the fire loop with a stop signal of its own; nobody can raise the one before it any more. -/
def runFireLoop (p : ProcessId) (stopped : Bool) : TaskId × Simulation :=
  let s := s.abandonStop p
  let (stop, w) := s.world.newId
  let w := (w.setSignal stop ⟨stopped, false⟩).setProcess p { w.process p with stop := stop }
  let (t, w) := w.newId
  (t, (s.setWorld w).addJobs [(t, .loop p (.fire stop w.now.clock))])

def pending (p : ProcessId) : List DelayedTask := (s.world.process p).pending.tasks

def setWall (t : Instant) : Simulation :=
  s.setWorld { s.world with now := { s.world.now with wall := t } }

def takeExecuted : List (String × Json) × Simulation :=
  (s.world.executed.reverse, s.setWorld { s.world with executed := [] })

end BrokeredCalls.Simulation
