import BrokeredCalls.Simulation.World

/-!
What simulated work asks of the world, one indivisible step for each request. A request is answered out
of the world as it is, or waits: on channels whose notices may change the answer, and for a moment
from which there is one in any case.
-/

namespace BrokeredCalls.Simulation

inductive Channel where
  | hub (name : String)
  | signal (s : SignalId)
  | task (t : TaskId)
  deriving DecidableEq, Repr

inductive Job where
  | execution (p : ProcessId) (e : Node.Execution)
  | loop (p : ProcessId) (l : Node.Loop)
  deriving Repr

inductive Request where
  | look
  | note (b : BrokerId) (c : Broker.Call)
  | serve (b : BrokerId) (c : Broker.Call)
  | serveUnlessStopped (b : BrokerId) (c : Broker.Call) (stop : SignalId)
  | rest (d : Duration)
  | restUnlessStopped (d : Duration) (stop : SignalId)
  | access (p : ProcessId) (a : TaskQueue.Access)
  | record (service : String) (input : Json)
  | markSpawned (p : ProcessId) (mark : Bool)
  | raise (s : SignalId)
  | start (job : Job)
  | launch (p : ProcessId) (loops : List Node.Loop)
  | takeWorkers (p : ProcessId)
  | join (t : TaskId)
  | release (p : ProcessId)
  | halt

abbrev Request.Answer : Request → Type
  | look => World
  | note .. => Option Error
  | serve _ c => Except Error c.Value
  | serveUnlessStopped _ c _ => Node.Ended (Except Error c.Value)
  | rest _ => Unit
  | restUnlessStopped .. => Node.Ended Unit
  | access _ a => a.Value
  | markSpawned .. => Bool
  | record .. | raise _ | start _ | launch .. | join _ | release _ => Unit
  | takeWorkers _ => List TaskId
  | halt => Empty

abbrev interface : Interface where
  Request := Request
  Answer := Request.Answer

abbrev Work (α : Type) := Program interface α

def ask (r : Request) : Work r.Answer := Program.request (I := interface) r

inductive Turn (α : Type) where
  | answered (a : α) (w : World) (wakes : List Channel) (jobs : List (TaskId × Job))
  | waits (on : List Channel) (deadline : Option Nat)

namespace Turn

def done {α : Type} (a : α) (w : World) : Turn α := answered a w [] []

end Turn

/-- Whoever waits on the store is told of calls that succeed in changing what they wait for. -/
def wakesOf (w : World) (b : BrokerId) (c : Broker.Call) {α : Type} : Except Error α → List Channel
  | .ok _ => if Hub.wakes c then [.hub (w.handle b).hub] else []
  | .error _ => []

def nameJobs (w : World) : List Job → List (TaskId × Job) × World
  | [] => ([], w)
  | j :: js =>
    let (t, w) := w.newId
    let (rest, w) := nameJobs w js
    ((t, j) :: rest, w)

/-- A stop signal ends a wait once it is raised, or when it never will be. -/
def stopped? {α : Type} (w : World) (stop : SignalId) : Option (Node.Ended α) :=
  let s := w.signal stop
  if s.raised then some .raised else if s.abandoned then some .abandoned else none

namespace Request

def turn (w : World) (since : Nat) : (r : Request) → Turn r.Answer
  | look => .done w w
  | note b c =>
    let h := w.handle b
    let (hit, probe) := h.probe.meet c
    let w := w.setHandle b { h with probe := probe }
    match hit with
    | none => .done none w
    | some f => match f.deleteQueue with
      | none => .done f.error w
      | some q => .answered f.error (w.setHub h.hub ((w.hub h.hub).deleteQueue q).2) [.hub h.hub] []
  | serve b c => match w.serve since b c with
    | some (result, w') => .answered result w' (wakesOf w b c result) []
    | none => .waits [.hub (w.handle b).hub] (some (since + c.patience.nanos))
  | serveUnlessStopped b c stop => match w.serve since b c with
    | some (result, w') => .answered (.value result) w' (wakesOf w b c result) []
    | none => match stopped? w stop with
      | some ended => .done ended w
      | none => .waits [.hub (w.handle b).hub, .signal stop] (some (since + c.patience.nanos))
  | rest d =>
    if since + d.nanos ≤ w.now.clock then .done () w else .waits [] (some (since + d.nanos))
  | restUnlessStopped d stop => match stopped? w stop with
    | some ended => .done ended w
    | none =>
      if since + d.nanos ≤ w.now.clock then .done (.value ()) w
      else .waits [.signal stop] (some (since + d.nanos))
  | access p a =>
    let x := w.process p
    let (v, q) := a.run x.pending
    .done v (w.setProcess p { x with pending := q })
  | record service input => .done () { w with executed := (service, input) :: w.executed }
  | markSpawned p mark =>
    let x := w.process p
    .done x.spawned (w.setProcess p { x with spawned := mark })
  | raise s => .answered () (w.raise s) [.signal s] []
  | start job =>
    let (jobs, w) := nameJobs w [job]
    .answered () w [] jobs
  | launch p loops =>
    let (jobs, w) := nameJobs w (loops.map (Job.loop p))
    let x := w.process p
    .answered () (w.setProcess p { x with workers := x.workers ++ jobs.map (·.1) }) [] jobs
  | takeWorkers p =>
    let x := w.process p
    .done x.workers (w.setProcess p { x with workers := [] })
  | join t => if t ∈ w.finished then .done () w else .waits [.task t] none
  | release p => .answered () (w.release p) [.signal (w.process p).stop] []
  | halt => .waits [] none

end Request
end BrokeredCalls.Simulation
