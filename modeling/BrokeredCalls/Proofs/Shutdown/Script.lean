import BrokeredCalls.Proofs.Network.Script
import BrokeredCalls.Proofs.Shutdown.World

/-!
Runs of a node that can be computed: a script of moves, each one step, in which brokers answer at once.
-/

namespace BrokeredCalls.Shutdown

open Broker (Call)
open Network (Ending Job Operation Setup Trail round)
open Node (Effect Routine)

/-- How a request is dealt with: it is answered, or it is a wait that the stop signal cuts short, a close
that fails, or a wait for loops that another of two tasks waits for. -/
inductive Manner where
  | answer
  | cut
  | refuse
  | overtake (i k : Nat)

inductive Move where
  | begin (o : Operation)
  | turn (k : Nat) (manner : Manner)

namespace Task

def cameUp : Task → Bool
  | ⟨.operation .spawn, .done (.result .spawn (.ok _)), _⟩ => true
  | _ => false

def waiting : Task → Bool
  | ⟨_, .ask .joinWorkers _, _⟩ => true
  | _ => false

def stopped : Task → Bool
  | ⟨.loop _, .done .nothing, _⟩ => true
  | ⟨.loop _, _, _⟩ => false
  | _ => true

variable {t : Task}

theorem cameUp_eq (h : t.cameUp = true) :
    t.job = .operation .spawn ∧ t.work = .done (.result .spawn (.ok ())) := by
  unfold cameUp at h
  split at h
  · exact ⟨rfl, rfl⟩
  · cases h

theorem waits_of_waiting (h : t.waiting = true) : t.Waits := by
  unfold waiting at h
  split at h
  · exact ⟨_, rfl⟩
  · cases h

theorem over_of_stopped (h : t.stopped = true) (isLoop : t.IsLoop) : t.work = .done .nothing := by
  obtain ⟨j, work, tr⟩ := t
  obtain ⟨l, rfl⟩ : ∃ l, j = .loop l := isLoop
  cases work with
  | ask => cases h
  | done v =>
    cases v with
    | nothing => rfl
    | _ => cases h

end Task

namespace World

variable (node : Setup) (storeOf : BrokerId → StoreId) (w : World)

def called (b : BrokerId) (c : Call) : Option (Except Error c.Value × World) :=
  ((w.handles b).serve (w.stores (storeOf b)) w.now w.now.clock c).map fun (a, _, h) =>
    (a, w.store (storeOf b) h)

/-- The answer to a request and the world after it; none if it has to wait or the script has a say. -/
def answer? : (r : Effect) → Option (r.Answer × World)
  | .broker b .close => some (.ok (), w.shut b true)
  | .broker b c => w.called storeOf b c
  | .readUnlessStopped b g consumer services count block _ =>
    (w.called storeOf b (.readGroup g consumer services count block)).map fun (a, w) => (.value a, w)
  | .pauseUnlessStopped .. => some (.value (), w)
  | .isRaised _ => some (w.stopped, w)
  | .reading => some (w.now.wall.reading, w)
  | .clock => some (w.now.clock, w)
  | .pending access =>
    some ((access.run w.pending).1, { w with pending := (access.run w.pending).2 })
  | .resolve service => some (node.registry.resolve service, w)
  | .servicesOn source => some (node.registry.servicesOn source, w)
  | .invoke _ h payload => some ((h.run payload).outcome, w)
  | .claimSpawn => some (!w.spawned, { w with spawned := true })
  | .releaseSpawn => some ((), { w with spawned := false })
  | .subscribe => some (0, w)
  | .draw => some (.middle, w)
  | .raiseStop => some ((), { w with stopped := true })
  | .joinWorkers => if w.tasks.all Task.stopped then some ((), w) else none
  | .sleep _ | .start _ | .launch _ => some ((), w)
  | .abort _ => none

def respond? : Manner → (r : Effect) → Option (r.Answer × World)
  | .answer, r => w.answer? node storeOf r
  | .cut, .readUnlessStopped .. | .cut, .pauseUnlessStopped .. =>
    if w.stopped then some (.raised, w) else none
  | .refuse, .broker b .close => some (.error (.transport ""), w.shut b false)
  | .overtake i k, .joinWorkers =>
    if i ≠ k ∧ w.tasks[i]?.any Task.waiting ∧ w.tasks[k]?.any Task.waiting then some ((), w) else none
  | _, _ => none

def move? : Move → Option World
  | .begin o =>
    if o.alters = none ∧ (o = .shutdown → w.tasks.any Task.cameUp) then
      some (w.begin node [.operation o])
    else none
  | .turn k manner => match w.tasks[k]? with
    | some ⟨j, .ask r next, tr⟩ =>
      (w.respond? node storeOf manner r).map fun (a, w₁) => w.served node w₁ k j tr r a (next a)
    | some ⟨j, .done (.again l), tr⟩ => some (w.put k ⟨j, round node.shared l, tr⟩)
    | _ => none

/-- A move that cannot be made is left out. -/
def play : World → List Move → World
  | w, [] => w
  | w, m :: ms => play ((w.move? node storeOf m).getD w) ms

/-- No two shutdowns are under way after any of the moves. -/
def solely : World → List Move → Bool
  | _, [] => true
  | w, m :: ms => decide ((w.move? node storeOf m).getD w).Sole &&
    solely ((w.move? node storeOf m).getD w) ms

end World

variable {node : Setup} {storeOf : BrokerId → StoreId} {w w₁ w' : World} {r : Effect} {a : r.Answer}

theorem served_of_called {b : BrokerId} {c : Call} {a : Except Error c.Value}
    (h : w.called storeOf b c = some (a, w₁)) : ∃ handle hub,
      (w.handles b).serve (w.stores (storeOf b)) w.now w.now.clock c = some (a, handle, hub) ∧
        w₁ = w.store (storeOf b) hub := by
  obtain ⟨⟨a', handle, hub⟩, served, same⟩ := Option.map_eq_some_iff.mp h
  cases same
  exact ⟨handle, hub, served, rfl⟩

theorem serves_of_answer? (h : w.answer? node storeOf r = some (a, w₁)) :
    Serves node storeOf w r a w₁ := by
  cases r with
  | broker b c =>
    cases c with
    | close =>
      cases h
      exact .close ..
    | _ =>
      obtain ⟨handle, hub, served, rfl⟩ := served_of_called h
      exact .call _ nofun served
  | readUnlessStopped b g consumer services count block stop =>
    obtain ⟨⟨a', w₂⟩, called, same⟩ := Option.map_eq_some_iff.mp h
    cases same
    obtain ⟨handle, hub, served, rfl⟩ := served_of_called called
    exact .read _ served
  | joinWorkers =>
    simp only [World.answer?] at h
    split at h
    · next all =>
      cases h
      exact .joinWorkers fun t ht => (Task.over_of_stopped (List.all_eq_true.mp all t ht))
    · cases h
  | abort => cases h
  | _ =>
    cases h
    constructor

theorem serves_of_respond? {manner : Manner} (h : w.respond? node storeOf manner r = some (a, w₁)) :
    Serves node storeOf w r a w₁ := by
  unfold World.respond? at h
  split at h
  · exact serves_of_answer? h
  · split at h
    · next stopped =>
      cases h
      exact .cutRead stopped
    · cases h
  · split at h
    · next stopped =>
      cases h
      exact .cutPause stopped
    · cases h
  · cases h
    exact .close ..
  · split at h
    · next contested =>
      cases h
      obtain ⟨other, first, second⟩ := contested
      obtain ⟨t, ht, waits⟩ := (Option.any_eq_true ..).mp first
      obtain ⟨u, hu, waits'⟩ := (Option.any_eq_true ..).mp second
      exact .unwaited ⟨_, _, t, u, other, ht, hu, Task.waits_of_waiting waits,
        Task.waits_of_waiting waits'⟩
    · cases h
  · cases h

theorem Step.of_move {m : Move} (h : w.move? node storeOf m = some w') : Step node storeOf w w' := by
  cases m with
  | begin o =>
    simp only [World.move?] at h
    split at h
    · next may =>
      cases h
      refine .begin o may.1 fun down => ?_
      obtain ⟨t, ht, came⟩ := List.any_eq_true.mp (may.2 down)
      exact ⟨t, ht, Task.cameUp_eq came⟩
    · cases h
  | turn k manner =>
    simp only [World.move?] at h
    split at h
    · next here =>
      obtain ⟨⟨a, w₁⟩, answered, same⟩ := Option.map_eq_some_iff.mp h
      cases same
      exact .serve here (serves_of_respond? answered)
    · next here =>
      cases h
      exact .again here
    · cases h

theorem Reachable.play (reachable : Reachable node storeOf w) (ms : List Move) :
    Reachable node storeOf (w.play node storeOf ms) := by
  induction ms generalizing w with
  | nil => exact reachable
  | cons m ms ih =>
    unfold World.play
    cases hm : w.move? node storeOf m with
    | none => exact ih reachable
    | some w' => exact ih (.step reachable (.of_move hm))

theorem Apart.play (apart : Apart node storeOf w) {ms : List Move}
    (sole : w.solely node storeOf ms = true) : Apart node storeOf (w.play node storeOf ms) := by
  induction ms generalizing w with
  | nil => exact apart
  | cons m ms ih =>
    simp only [World.solely, Bool.and_eq_true, decide_eq_true_eq] at sole
    unfold World.play
    cases hm : w.move? node storeOf m with
    | none =>
      rw [hm] at sole
      exact ih apart sole.2
    | some w' =>
      rw [hm] at sole
      exact ih (.step apart (.of_move hm) sole.1) sole.2

def turns (k count : Nat) : List Move := List.replicate count (.turn k .answer)

def World.new (now : Moment) : World where
  now := now
  stores _ := .empty
  handles _ := .new ""
  pending := .empty
  spawned := false
  stopped := false
  tasks := []
  history := []

theorem fresh_new (now : Moment) : (World.new now).Fresh :=
  ⟨fun _ => .empty, fun _ => rfl, rfl, rfl, rfl⟩

end BrokeredCalls.Shutdown
