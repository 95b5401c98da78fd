import Mathlib.Control.Monad.Basic
import BrokeredCalls.Proofs.Network.History

/-!
Runs that can be computed: a script of moves, each one step of a network whose surroundings answer at
once and as they can.
-/

namespace BrokeredCalls.Network

open Node (Effect)

inductive Move where
  | pass (now : Moment)
  | begin (n : NodeId) (o : Operation)
  | turn (t : TaskId)
  | fail (t : TaskId)

def answer? (net : NodeId → Setup) (S : State) (n : NodeId) :
    (r : Effect) → Option (r.Answer × Hub × TaskQueue)
  | .broker _ c => (S.hub.serve S.now S.now.clock c).map fun (a, h) => (a, h, S.pending n)
  | .readUnlessStopped _ group consumer services count block _ =>
    (S.hub.serve S.now S.now.clock (.readGroup group consumer services count block)).map
      fun (a, h) => (.value a, h, S.pending n)
  | .pending access => some ((access.run (S.pending n)).1, S.hub, (access.run (S.pending n)).2)
  | .resolve service => some ((net n).registry.resolve service, S.hub, S.pending n)
  | .servicesOn source => some ((net n).registry.servicesOn source, S.hub, S.pending n)
  | .invoke _ handler payload => some ((handler.run payload).outcome, S.hub, S.pending n)
  | .reading => some (S.now.wall.reading, S.hub, S.pending n)
  | .clock => some (S.now.clock, S.hub, S.pending n)
  | .pauseUnlessStopped .. => some (.value (), S.hub, S.pending n)
  | .isRaised _ => some (false, S.hub, S.pending n)
  | .claimSpawn => some (true, S.hub, S.pending n)
  | .subscribe => some (0, S.hub, S.pending n)
  | .draw => some (.middle, S.hub, S.pending n)
  | .sleep _ | .start _ | .releaseSpawn | .launch _ | .raiseStop | .joinWorkers =>
    some ((), S.hub, S.pending n)
  | .abort _ => none

def refusal? : (r : Effect) → Option r.Answer
  | .broker _ _ => some (.error (.transport ""))
  | .readUnlessStopped .. => some (.value (.error (.transport "")))
  | _ => none

namespace State

def served (net : NodeId → Setup) (S : State) (t : TaskId) (n : NodeId) (r : Effect) (a : r.Answer)
    (next : r.Answer → Node.Routine Ending) (h : Hub) (q : TaskQueue) : State :=
  ((S.setWork t (next a)).store h n q).record net (.served t r a) n (jobsOf r)

def move? (net : NodeId → Setup) (S : State) : Move → Option State
  | .pass now => if S.now.clock ≤ now.clock then some { S with now := now } else none
  | .begin n o => some (S.record net (.began n o) n [.operation o])
  | .turn t => match S.tasks t with
    | some ⟨n, _, .ask r next⟩ =>
      (answer? net S n r).map fun (a, h, q) => S.served net t n r a next h q
    | some ⟨n, _, .done (.again l)⟩ => some (S.setWork t (round (net n).shared l))
    | _ => none
  | .fail t => match S.tasks t with
    | some ⟨n, _, .ask r next⟩ =>
      (refusal? r).map fun a => S.served net t n r a next S.hub (S.pending n)
    | _ => none

/-- A move that cannot be made is left out. -/
def play (net : NodeId → Setup) : State → List Move → State
  | S, [] => S
  | S, m :: ms => ((S.move? net m).getD S).play net ms

end State

variable {net : NodeId → Setup} {S S' : State}

theorem answers_of_answer? {n : NodeId} {r : Effect} {a : r.Answer} {h : Hub} {q : TaskQueue}
    (ha : answer? net S n r = some (a, h, q)) : Answers net S n r a h q := by
  cases r with
  | broker b c =>
    obtain ⟨⟨a', h'⟩, hs, heq⟩ := Option.map_eq_some_iff.mp ha
    cases heq
    exact ⟨Hub.does_of_serve hs, rfl⟩
  | readUnlessStopped b group consumer services count block stop =>
    obtain ⟨⟨a', h'⟩, hs, heq⟩ := Option.map_eq_some_iff.mp ha
    cases heq
    exact ⟨Hub.does_of_serve hs, rfl⟩
  | pending access =>
    cases ha
    exact ⟨rfl, rfl⟩
  | resolve | servicesOn | reading | clock =>
    cases ha
    exact ⟨rfl, rfl, rfl⟩
  | abort why => cases ha
  | _ =>
    cases ha
    exact ⟨rfl, rfl⟩

theorem answers_of_refusal? {n : NodeId} {r : Effect} {a : r.Answer} (ha : refusal? r = some a) :
    Answers net S n r a S.hub (S.pending n) := by
  cases r with
  | broker b c =>
    cases ha
    exact ⟨.inr ⟨_, rfl, rfl, rfl⟩, rfl⟩
  | readUnlessStopped =>
    cases ha
    exact ⟨.inr ⟨_, rfl, rfl, rfl⟩, rfl⟩
  | _ => cases ha

theorem Step.of_move {m : Move} (h : S.move? net m = some S') : Step net S S' := by
  cases m with
  | pass now =>
    simp only [State.move?] at h
    split at h
    · next later =>
      cases h
      exact .pass now later
    · cases h
  | begin n o =>
    cases h
    exact .begin n o
  | turn t =>
    simp only [State.move?] at h
    split at h
    · next here =>
      obtain ⟨⟨a, hub, q⟩, ha, heq⟩ := Option.map_eq_some_iff.mp h
      cases heq
      exact .serve here (answers_of_answer? ha)
    · next here =>
      cases h
      exact .again here
    · cases h
  | fail t =>
    simp only [State.move?] at h
    split at h
    · next here =>
      obtain ⟨a, ha, heq⟩ := Option.map_eq_some_iff.mp h
      cases heq
      exact .serve here (answers_of_refusal? ha)
    · cases h

theorem Reachable.play (reach : Reachable net S) (ms : List Move) :
    Reachable net (S.play net ms) := by
  induction ms generalizing S with
  | nil => exact reach
  | cons m ms ih =>
    unfold State.play
    cases hm : S.move? net m with
    | none => exact ih reach
    | some S' => exact ih (.step reach (.of_move hm))

def turns (event index count : Nat) : List Move := List.replicate count (.turn ⟨event, index⟩)

/-- A node of a group that hosts one service, which answers with what it is given. -/
def Setup.echo (group : String) : Setup where
  shared := ⟨[⟨"main", 0, "consumer"⟩], { Config.default with group := group }⟩
  registry := Registry.empty.register "main" "s" (.raw (fun _ => .null) .ok)

instance (S : State) (t : TaskId) (n : NodeId) (j : Job) : Decidable (S.has t n j) :=
  decidable_of_iff ((S.tasks t).map (fun τ => (τ.node, τ.job)) = some (n, j)) <| by
    unfold State.has
    rw [Option.map_eq_some_iff]
    constructor
    · rintro ⟨⟨n', j', w⟩, hτ, heq⟩
      cases heq
      exact ⟨w, hτ⟩
    · rintro ⟨w, hw⟩
      exact ⟨_, hw, rfl⟩

end BrokeredCalls.Network
