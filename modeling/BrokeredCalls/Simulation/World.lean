import BrokeredCalls.Hub.Handle
import BrokeredCalls.Node.Effect
import BrokeredCalls.Simulation.Probe

/-!
The world that simulated nodes share: both clocks, the memory stores by name, broker handles with their
probes, registries, stop signals, and what each process keeps to itself.
-/

namespace BrokeredCalls.Simulation

abbrev RegistryId := Nat
abbrev ProcessId := Nat
abbrev TaskId := Nat

structure Handle where
  hub : String
  broker : Hub.Handle
  consumer : String
  probe : Probe
  deriving Repr, Inhabited

/-- A stop signal, raised at most once; it is abandoned when nobody is left to raise it. -/
structure Signal where
  raised : Bool
  abandoned : Bool
  deriving DecidableEq, Repr, Inhabited

structure Process where
  shared : Node.Shared
  registry : RegistryId
  pending : TaskQueue
  spawned : Bool
  stop : SignalId
  workers : List TaskId
  holders : Nat

instance : Inhabited Process := ⟨⟨⟨[], .default⟩, 0, .empty, false, 0, [], 0⟩⟩

structure World where
  now : Moment
  hubs : Table String Hub
  handles : Table BrokerId Handle
  registries : Table RegistryId Registry
  processes : Table ProcessId Process
  signals : Table SignalId Signal
  finished : List TaskId
  /-- Runs of handlers with the input that each noted, newest first. -/
  executed : List (String × Json)
  fresh : Nat

namespace World

def new (wall : Instant) : World :=
  ⟨⟨wall, 0⟩, .empty, .empty, .empty, .empty, .empty, [], [], 1⟩

variable (w : World)

def hub (name : String) : Hub := (w.hubs.find? name).getD default
def handle (b : BrokerId) : Handle := (w.handles.find? b).getD default
def registry (r : RegistryId) : Registry := (w.registries.find? r).getD default
def process (p : ProcessId) : Process := (w.processes.find? p).getD default
def signal (s : SignalId) : Signal := (w.signals.find? s).getD default

def setHub (name : String) (h : Hub) : World := { w with hubs := w.hubs.set name h }
def setHandle (b : BrokerId) (h : Handle) : World := { w with handles := w.handles.set b h }
def setRegistry (r : RegistryId) (x : Registry) : World :=
  { w with registries := w.registries.set r x }
def setProcess (p : ProcessId) (x : Process) : World :=
  { w with processes := w.processes.set p x }
def setSignal (s : SignalId) (x : Signal) : World := { w with signals := w.signals.set s x }

def newId : Nat × World := (w.fresh, { w with fresh := w.fresh + 1 })

def advanceTo (clock : Nat) : World :=
  { w with now := ⟨⟨w.now.wall.nanos + ((clock : Int) - w.now.clock)⟩, clock⟩ }

def raise (s : SignalId) : World :=
  if (w.signal s).abandoned then w else w.setSignal s { w.signal s with raised := true }

def abandon (s : SignalId) : World := w.setSignal s { w.signal s with abandoned := true }

/-- One holder of a node fewer; the last one leaves its stop signal to nobody. -/
def release (p : ProcessId) : World :=
  let x := w.process p
  let w := w.setProcess p { x with holders := x.holders - 1 }
  if x.holders ≤ 1 then w.abandon x.stop else w

def serve (since : Nat) (b : BrokerId) (c : Broker.Call) :
    Option (Except Error c.Value × World) :=
  let h := w.handle b
  (h.broker.serve (w.hub h.hub) w.now (since + c.patience.nanos) c).map fun (result, broker, hub) =>
    (result, (w.setHub h.hub hub).setHandle b { h with broker := broker })

end World
end BrokeredCalls.Simulation
