import BrokeredCalls.Node.Basic
import BrokeredCalls.Proofs.Hub.Serve

/-!
Any number of nodes on one memory store. What nodes are asked to do, their loops and their executions
are tasks; one step serves one request of one task, begins an operation or lets time pass, so any
interleaving is a run. What the store, the pending lists and the registries answer is determined up
to failures of the transport and to when a wait ends; handlers, stop signals and the marks of a spawn
may answer anything. A task is named for the event that brought it about.
-/

namespace BrokeredCalls

open Node (Effect Execution Loop Routine Shared)

abbrev NodeId := Nat

namespace Network

structure Setup where
  shared : Shared
  registry : Registry

inductive Operation where
  | call (service : String) (payload : Bytes) (timeout : Duration)
  | scheduleAt (service : String) (instant : Instant) (payload : Bytes)
  | cancel (service : String) (instant : Instant)
  | awaitScheduled (service : String) (instant : Instant) (timeout : Duration)
  | add (b : BrokerId) (service : String) (t : FireTime) (payload : Bytes)
  | remove (b : BrokerId) (service : String) (t : FireTime)
  | spawn
  | reload
  | shutdown
  deriving DecidableEq

namespace Operation

abbrev Value : Operation → Type
  | call .. | awaitScheduled .. => Except Error Bytes
  | scheduleAt .. => Except Error FireTime
  | cancel .. | add .. | remove .. | spawn => Except Error Unit
  | reload => Except Error Nat
  | shutdown => Unit

def routine (s : Shared) : (o : Operation) → Routine o.Value
  | call service payload timeout => (Node.callWithTimeout s service payload timeout).run
  | scheduleAt service instant payload => (Node.scheduleAt s service instant payload).run
  | cancel service instant => (Node.cancel s service instant).run
  | awaitScheduled service instant timeout => (Node.awaitScheduled s service instant timeout).run
  | add b service t payload => (Node.Deferred.add b service t payload).run
  | remove b service t => (Node.Deferred.remove b service t).run
  | spawn => (Node.spawn s).run
  | reload => (Node.Deferred.reload s).run
  | shutdown => Node.shutdown s

end Operation

inductive Job where
  | operation (o : Operation)
  | loop (l : Loop)
  | execution (e : Execution)
  deriving DecidableEq

inductive Ending where
  | result (o : Operation) (v : o.Value)
  | nothing
  | again (l : Loop)

def round (s : Shared) (l : Loop) : Routine Ending := do
  match ← l.round s with
  | some l => return .again l
  | none => return .nothing

def Job.work (s : Shared) : Job → Routine Ending
  | operation o => do return .result o (← o.routine s)
  | loop l => return .again l
  | execution e => do
    e.routine
    return .nothing

def jobsOf : Effect → List Job
  | .start e => [.execution e]
  | .launch loops => loops.map .loop
  | _ => []

@[ext] structure TaskId where
  event : Nat
  index : Nat
  deriving DecidableEq

structure Task where
  node : NodeId
  job : Job
  work : Routine Ending

inductive Event where
  | began (n : NodeId) (o : Operation)
  | served (t : TaskId) (r : Effect) (a : r.Answer)

structure State where
  now : Moment
  hub : Hub
  pending : NodeId → TaskQueue
  tasks : TaskId → Option Task
  /-- Newest first. -/
  history : List Event

namespace State

def start (now : Moment) : State := ⟨now, .empty, fun _ => .empty, fun _ => none, []⟩

def setWork (S : State) (t : TaskId) (work : Routine Ending) : State :=
  { S with tasks := fun u => if u = t then (S.tasks t).map ({ · with work := work }) else S.tasks u }

def store (S : State) (h : Hub) (n : NodeId) (q : TaskQueue) : State :=
  { S with hub := h, pending := fun m => if m = n then q else S.pending m }

def record (net : NodeId → Setup) (S : State) (e : Event) (n : NodeId) (jobs : List Job) : State where
  now := S.now
  hub := S.hub
  pending := S.pending
  tasks t :=
    if t.event = S.history.length then
      jobs[t.index]?.map fun j => ⟨n, j, j.work (net n).shared⟩
    else S.tasks t
  history := e :: S.history

end State

def Answers (net : NodeId → Setup) (S : State) (n : NodeId) :
    (r : Effect) → r.Answer → Hub → TaskQueue → Prop
  | .broker _ c, a, h, q => Hub.Does S.hub S.now (.call c) a h ∧ q = S.pending n
  | .readUnlessStopped _ group consumer services count block _, .value a, h, q =>
    Hub.Does S.hub S.now (.call (.readGroup group consumer services count block)) a h ∧
      q = S.pending n
  | .pending access, a, h, q => h = S.hub ∧ access.run (S.pending n) = (a, q)
  | .resolve service, a, h, q =>
    a = (net n).registry.resolve service ∧ h = S.hub ∧ q = S.pending n
  | .servicesOn source, a, h, q =>
    a = (net n).registry.servicesOn source ∧ h = S.hub ∧ q = S.pending n
  | .reading, a, h, q => a = S.now.wall.reading ∧ h = S.hub ∧ q = S.pending n
  | .clock, a, h, q => a = S.now.clock ∧ h = S.hub ∧ q = S.pending n
  | _, _, h, q => h = S.hub ∧ q = S.pending n

inductive Step (net : NodeId → Setup) : State → State → Prop
  | pass {S : State} (now : Moment) (later : S.now.clock ≤ now.clock) :
    Step net S { S with now := now }
  | begin {S : State} (n : NodeId) (o : Operation) :
    Step net S (S.record net (.began n o) n [.operation o])
  | serve {S : State} {t : TaskId} {n : NodeId} {j : Job} {r : Effect}
    {next : r.Answer → Routine Ending} {a : r.Answer} {h : Hub} {q : TaskQueue}
    (here : S.tasks t = some ⟨n, j, .ask r next⟩) (answers : Answers net S n r a h q) :
    Step net S (((S.setWork t (next a)).store h n q).record net (.served t r a) n (jobsOf r))
  | again {S : State} {t : TaskId} {n : NodeId} {j : Job} {l : Loop}
    (here : S.tasks t = some ⟨n, j, .done (.again l)⟩) :
    Step net S (S.setWork t (round (net n).shared l))

inductive Reachable (net : NodeId → Setup) : State → Prop
  | start (now : Moment) : Reachable net (.start now)
  | step {S S' : State} (earlier : Reachable net S) (step : Step net S S') : Reachable net S'

end Network
end BrokeredCalls
