import BrokeredCalls.Proofs.Hub.Wellformed
import BrokeredCalls.Proofs.Network.Rules

/-!
One node over its whole life, with all that it runs side by side: what it is asked to do, its loops and
its executions. Its routes stay as they are, and somebody holds on to it, so no wait is abandoned. Its
brokers are on stores that others may use too. A broker fails once it is closed, and a close may come to
anything. One step answers one request of one task, so a shutdown can meet a loop between any two of its
requests, and so can another shutdown: of those that run side by side, one waits for the loops.
-/

namespace BrokeredCalls.Shutdown

open Broker (Call)
open Hub (Handle)
open Network (Ending Job Operation Setup Trail jobsOf round)
open Node (Effect Execution Loop Routine Shared)

abbrev StoreId := Nat

/-- The newest exchange of a trail comes first. -/
structure Task where
  job : Job
  work : Routine Ending
  trail : Trail

namespace Task

def begun (s : Shared) (j : Job) : Task := ⟨j, j.work s, []⟩

def IsLoop (t : Task) : Prop := ∃ l, t.job = .loop l

def Over (t : Task) : Prop := ∃ v, t.work = .done v

/-- At the wait for the loops. -/
def Waits (t : Task) : Prop := ∃ next, t.work = .ask .joinWorkers next

/-- A shutdown that has not come back. -/
def goesDown : Task → Bool
  | ⟨.operation .shutdown, .ask .., _⟩ => true
  | _ => false

end Task

structure Event where
  doer : Option (Nat × Exchange Node.interface)
  before : StoreId → Hub
  after : StoreId → Hub

/-- Tasks stand in the order in which they began, events the newest first. -/
structure World where
  now : Moment
  stores : StoreId → Hub
  handles : BrokerId → Handle
  pending : TaskQueue
  spawned : Bool
  stopped : Bool
  tasks : List Task
  history : List Event

namespace World

def store (w : World) (i : StoreId) (h : Hub) : World :=
  { w with stores := fun k => if k = i then h else w.stores k }

def shut (w : World) (b : BrokerId) (shuts : Bool) : World :=
  { w with handles := fun k =>
    if k = b then { w.handles k with closed := (w.handles k).closed || shuts } else w.handles k }

def note (w w₁ : World) (doer : Option (Nat × Exchange Node.interface)) : World :=
  { w₁ with history := ⟨doer, w.stores, w₁.stores⟩ :: w₁.history }

/-- Two tasks are at the wait for the loops. -/
def Contested (w : World) : Prop := ∃ (i k : Nat) (t u : Task), i ≠ k ∧ w.tasks[i]? = some t ∧
  w.tasks[k]? = some u ∧ t.Waits ∧ u.Waits

end World

variable (node : Setup) (storeOf : BrokerId → StoreId)

inductive Serves (w : World) : (r : Effect) → r.Answer → World → Prop
  | call {b : BrokerId} {c : Call} {a : Except Error c.Value} {handle : Handle} {h : Hub}
    (deadline : Nat) (stays : c ≠ .close)
    (served : (w.handles b).serve (w.stores (storeOf b)) w.now deadline c = some (a, handle, h)) :
    Serves w (.broker b c) a (w.store (storeOf b) h)
  /-- A close may be refused, and may shut the handle or not. -/
  | close (b : BrokerId) (a : Except Error Unit) (shuts : Bool) :
    Serves w (.broker b .close) a (w.shut b shuts)
  | read {b : BrokerId} {g consumer : String} {services : List String} {count : Nat} {block : Duration}
    {stop : SignalId} {a : Except Error (List Delivery)} {handle : Handle} {h : Hub} (deadline : Nat)
    (served : (w.handles b).serve (w.stores (storeOf b)) w.now deadline
      (.readGroup g consumer services count block) = some (a, handle, h)) :
    Serves w (.readUnlessStopped b g consumer services count block stop) (.value a)
      (w.store (storeOf b) h)
  /-- A read that still waits has taken nothing. -/
  | cutRead {b : BrokerId} {g consumer : String} {services : List String} {count : Nat}
    {block : Duration} {stop : SignalId} (stopped : w.stopped = true) :
    Serves w (.readUnlessStopped b g consumer services count block stop) .raised w
  | pause (d : Duration) (stop : SignalId) : Serves w (.pauseUnlessStopped d stop) (.value ()) w
  | cutPause {d : Duration} {stop : SignalId} (stopped : w.stopped = true) :
    Serves w (.pauseUnlessStopped d stop) .raised w
  | isRaised (stop : SignalId) : Serves w (.isRaised stop) w.stopped w
  | sleep (d : Duration) : Serves w (.sleep d) () w
  | draw (k : Retry.Draw) : Serves w .draw k w
  | reading : Serves w .reading w.now.wall.reading w
  | clock : Serves w .clock w.now.clock w
  | pending (access : TaskQueue.Access) : Serves w (.pending access) (access.run w.pending).1
    { w with pending := (access.run w.pending).2 }
  | resolve (service : String) : Serves w (.resolve service) (node.registry.resolve service) w
  | servicesOn (source : String) : Serves w (.servicesOn source) (node.registry.servicesOn source) w
  | invoke (service : String) (h : Handler) (payload : Bytes) (result : Except Error Bytes) :
    Serves w (.invoke service h payload) result w
  | start (e : Execution) : Serves w (.start e) () w
  | claimSpawn : Serves w .claimSpawn (!w.spawned) { w with spawned := true }
  | releaseSpawn : Serves w .releaseSpawn () { w with spawned := false }
  | subscribe (stop : SignalId) : Serves w .subscribe stop w
  | launch (loops : List Loop) : Serves w (.launch loops) () w
  | raiseStop : Serves w .raiseStop () { w with stopped := true }
  | joinWorkers (ended : ∀ t ∈ w.tasks, t.IsLoop → t.work = .done .nothing) : Serves w .joinWorkers () w
  /-- Loops that another shutdown waits for are not waited for again. -/
  | unwaited (contested : w.Contested) : Serves w .joinWorkers () w

def Started (w : World) : Prop :=
  ∃ t ∈ w.tasks, t.job = .operation .spawn ∧ t.work = .done (.result .spawn (.ok ()))

def ShutDown (w : World) : Prop :=
  ∃ t ∈ w.tasks, t.job = .operation .shutdown ∧ t.work = .done (.result .shutdown ())

namespace World

def put (w : World) (k : Nat) (t : Task) : World := { w with tasks := w.tasks.set k t }

def begin (w : World) (jobs : List Job) : World :=
  { w with tasks := w.tasks ++ jobs.map (Task.begun node.shared) }

def served (w w₁ : World) (k : Nat) (j : Job) (tr : Trail) (r : Effect) (a : r.Answer)
    (work : Routine Ending) : World :=
  ((w.note w₁ (some (k, ⟨r, a⟩))).put k ⟨j, work, ⟨r, a⟩ :: tr⟩).begin node (jobsOf r)

end World

inductive Step : World → World → Prop
  | pass {w : World} (now : Moment) (later : w.now.clock ≤ now.clock) : Step w { w with now := now }
  | outside {w : World} (i : StoreId) {a : Hub.Action} {r : a.Result} {h : Hub}
    (does : Hub.Does (w.stores i) w.now a r h) : Step w (w.note (w.store i h) none)
  | begin {w : World} (o : Operation) (alone : o.alters = none) (up : o = .shutdown → Started w) :
    Step w (w.begin node [.operation o])
  | serve {w w₁ : World} {k : Nat} {j : Job} {tr : Trail} {r : Effect}
    {next : r.Answer → Routine Ending} {a : r.Answer}
    (here : w.tasks[k]? = some ⟨j, .ask r next, tr⟩) (serves : Serves node storeOf w r a w₁) :
    Step w (w.served node w₁ k j tr r a (next a))
  | again {w : World} {k : Nat} {j : Job} {tr : Trail} {l : Loop}
    (here : w.tasks[k]? = some ⟨j, .done (.again l), tr⟩) :
    Step w (w.put k ⟨j, round node.shared l, tr⟩)

/-- A node that was just built; its pending list may be what anybody left there. -/
structure World.Fresh (w : World) : Prop where
  stores : ∀ i, Hub.Reachable (w.stores i)
  opened : ∀ b, (w.handles b).closed = false
  unspawned : w.spawned = false
  tasks : w.tasks = []
  history : w.history = []

inductive Reachable : World → Prop
  | fresh {w : World} (fresh : w.Fresh) : Reachable w
  | step {w w' : World} (earlier : Reachable w) (step : Step node storeOf w w') : Reachable w'

/-- At most one shutdown is under way. -/
def World.Sole (w : World) : Prop := w.tasks.Pairwise fun t u => ¬ (t.goesDown ∧ u.goesDown)

instance (w : World) : Decidable w.Sole :=
  inferInstanceAs (Decidable (w.tasks.Pairwise fun t u => ¬ (t.goesDown ∧ u.goesDown)))

/-- Reached with no shutdown called while another one was under way. -/
inductive Apart : World → Prop
  | fresh {w : World} (fresh : w.Fresh) : Apart w
  | step {w w' : World} (earlier : Apart w) (step : Step node storeOf w w') (sole : w'.Sole) : Apart w'

inductive Later (w : World) : World → Prop
  | now : Later w w
  | step {w₁ w' : World} (later : Later w w₁) (step : Step node storeOf w₁ w') : Later w w'

end BrokeredCalls.Shutdown
