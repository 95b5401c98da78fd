import BrokeredCalls.Simulation.Action

/-!
Running work one task at a time. A task runs until it waits or ends; then the next one that can go on
runs, in the order in which they became able to. One task, the foreground, runs only when no other
can. Time passes only when nobody can run, and then up to the next deadline, on a grid of whole
milliseconds.
-/

namespace BrokeredCalls.Simulation

inductive Ending where
  | result (r : Result)
  | nothing
  | again (p : ProcessId) (l : Node.Loop)

structure Task where
  id : TaskId
  work : Work Ending
  /-- When the request it stands at was first made. -/
  since : Nat

structure Parked where
  task : Task
  on : List Channel
  wakeAt : Option Nat

end Simulation

structure Simulation where
  world : Simulation.World
  /-- Those that can run, in the order in which they will. -/
  ready : List Simulation.Task
  front : Option Simulation.Task
  /-- Those that wait, in the order in which they began to. -/
  parked : List Simulation.Parked
  results : Table Simulation.TaskId Simulation.Result

namespace Simulation

def new (wall : Instant) : Simulation := ⟨.new wall, [], none, [], .empty⟩

def foreground : TaskId := 0

def round (p : ProcessId) (l : Node.Loop) : Work Ending := do
  match ← inProcess p fun s => Node.Loop.round s l with
  | some l => return .again p l
  | none => return .nothing

def Job.work : Job → Work Ending
  | execution p e => do
    inProcess p fun _ => e.routine
    return .nothing
  | loop p l => return .again p l

/-- The first whole millisecond from which a deadline has passed. -/
def tick (deadline : Nat) : Nat := (Duration.ofMillis (Duration.mk deadline).millisUp).nanos

def isFinished (s : Simulation) (t : TaskId) : Bool := t ∈ s.world.finished

def resume (s : Simulation) (ts : List Task) : Simulation :=
  { s with
    ready := s.ready ++ ts.filter (·.id ≠ foreground)
    front := (ts.find? (·.id = foreground)).or s.front }

def wakeWhere (s : Simulation) (due : Parked → Bool) : Simulation :=
  let woken := (s.parked.filter due).map Parked.task
  { s with parked := s.parked.filter fun p => !due p }.resume woken

def wake (s : Simulation) (channels : List Channel) : Simulation :=
  if channels.isEmpty then s else s.wakeWhere fun p => p.on.any (· ∈ channels)

def addJobs (s : Simulation) (jobs : List (TaskId × Job)) : Simulation :=
  s.resume (jobs.map fun (t, j) => ⟨t, j.work, s.world.now.clock⟩)

def finish (s : Simulation) (t : TaskId) : Simulation :=
  { s with world := { s.world with finished := t :: s.world.finished } }.wake [.task t]

/-- Runs a task until it waits or ends; a loop comes to its next round before all others. -/
def runTask (s : Simulation) (id : TaskId) (since : Nat) : Work Ending → Simulation
  | .done (.result r) => { s with results := s.results.set id r }.finish id
  | .done .nothing => s.finish id
  | .done (.again p l) => { s with ready := ⟨id, round p l, s.world.now.clock⟩ :: s.ready }
  | .ask r next => match r.turn s.world since with
    | .answered a w channels jobs =>
      runTask (({ s with world := w }.wake channels).addJobs jobs) id w.now.clock (next a)
    | .waits on deadline =>
      { s with parked := s.parked ++ [⟨⟨id, .ask r next, since⟩, on, deadline.map tick⟩] }

def run (s : Simulation) (t : Task) : Simulation := s.runTask t.id t.since t.work

def nextWake (s : Simulation) : Option Nat := (s.parked.filterMap (·.wakeAt)).min?

/-- Time passes up to the next deadline; none if nobody has one. -/
def passTime (s : Simulation) : Option Simulation := do
  let t ← s.nextWake
  return { s with world := s.world.advanceTo t }.wakeWhere fun p =>
    match p.wakeAt with
    | some u => u ≤ t
    | none => false

def step (s : Simulation) : Option Simulation :=
  match s.ready with
  | t :: ts => some ({ s with ready := ts }.run t)
  | [] => match s.front with
    | some t => some ({ s with front := none }.run t)
    | none => s.passTime

def runUntil (t : TaskId) : (turns : Nat) → Simulation → Simulation
  | 0, s => s
  | turns + 1, s =>
    if s.isFinished t then s
    else match s.step with
      | some s => runUntil t turns s
      | none => s

def settleFor : (turns : Nat) → Simulation → Simulation
  | 0, s => s
  | turns + 1, s => match s.ready with
    | t :: ts => settleFor turns ({ s with ready := ts }.run t)
    | [] => s

/-- More turns than any one step of a scenario takes. -/
def patience : Nat := 100000000

def settle (s : Simulation) : Simulation := settleFor patience s

def act (s : Simulation) (a : Action) : Option Result × Simulation :=
  let s := { s with
    world := { s.world with finished := s.world.finished.filter (· ≠ foreground) }
    results := s.results.erase foreground }
  let work : Work Ending := do return .result ⟨a, ← a.work⟩
  let s := runUntil foreground patience (s.runTask foreground s.world.now.clock work)
  (s.results.find? foreground, s)

/-- Starts something in the background. A node is held until it is over. -/
def start (s : Simulation) (a : Action) : TaskId × Simulation :=
  let (t, w) := s.world.newId
  let w := match a.holds with
    | some p => w.setProcess p { w.process p with holders := (w.process p).holders + 1 }
    | none => w
  let work : Work Ending := do
    let v ← a.work
    match a.holds with
    | some p => ask (.release p)
    | none => pure ()
    return .result ⟨a, v⟩
  (t, { s with world := w }.resume [⟨t, work, w.now.clock⟩])

def join (s : Simulation) (t : TaskId) : Option Result × Simulation :=
  let s := runUntil t patience s
  (s.results.find? t, s)

end Simulation
end BrokeredCalls
