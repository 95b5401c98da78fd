import BrokeredCalls.Proofs.Asking
import BrokeredCalls.Proofs.Solo.World

/-! No program for deferred calls waits for anything, so a node on its own gets through all it does. -/

namespace BrokeredCalls.Solo

open Network (Setup)
open Node (Effect Execution Routine)
open Program (Runs Asks)

variable {node : Setup} {now : FireTime}

def prompt : Effect → Bool
  | .broker _ (.hashSet ..) | .broker _ (.hashDelete ..) | .broker _ (.hashTake ..) => true
  | .broker _ (.hashFields _) | .broker _ (.pushReply ..) => true
  | .pending _ | .resolve _ | .servicesOn _ | .invoke .. | .start _ => true
  | .isRaised _ | .clock | .reading | .pauseUnlessStopped .. => true
  | _ => false

abbrev Prompt {α : Type} (p : Routine α) : Prop := Asks (fun r => prompt r = true) p

theorem exists_answer {r : Effect} (h : prompt r = true) (W : World) :
    ∃ a W', Answers node now W r a W' := by
  have served {b : BrokerId} {c : Broker.Call} {a : Except Error c.Value} {hub : Hub}
      (hs : W.hub.serve ⟨⟨0⟩, 0⟩ 0 c = some (a, hub)) :
      ∃ a W', Answers node now W (.broker b c) a W' := ⟨a, _, _, 0, hub, hs, rfl⟩
  cases r with
  | broker b c =>
    cases c with
    | hashSet | hashDelete | hashTake | hashFields | pushReply => exact served rfl
    | _ => cases h
  | pending access => exact ⟨_, _, rfl, rfl⟩
  | resolve | servicesOn | reading | isRaised => exact ⟨_, W, rfl, rfl⟩
  | invoke service handler payload => exact ⟨.ok [], _, rfl⟩
  | start => exact ⟨(), W, rfl⟩
  | clock => exact ⟨0, W, rfl⟩
  | pauseUnlessStopped => exact ⟨.raised, W, rfl⟩
  | _ => cases h

theorem prompt_routine (e : Execution) : Prompt e.routine :=
  e.asks_routine rfl (fun _ => rfl) fun _ => rfl

theorem exists_serve {r : Effect} (h : prompt r = true) (W : World) :
    ∃ a W', Serves node now W r a W' := by
  have answer : ∃ a W', Answers node now W r a W' := exists_answer h W
  cases r with
  | start e =>
    obtain ⟨_, W', run⟩ := (prompt_routine e).exists_runs (fun _ => exists_answer) W
    exact ⟨(), W', run⟩
  | _ => exact answer

theorem Prompt.exists_runs {α : Type} {p : Routine α} (h : Prompt p) (W : World) :
    ∃ a W', Runs (Serves node now) p W a W' := Asks.exists_runs h (fun _ => exists_serve) W

theorem prompt_route (s : Node.Shared) (b : BrokerId) (d : Delivery) :
    Prompt (Node.Dispatch.route s b d) :=
  Node.asks_route d (fun _ _ => rfl) (fun _ => rfl) (fun _ => rfl) (fun _ => rfl) fun _ => rfl

theorem prompt_fire (s : Node.Shared) (t : DelayedTask) : Prompt (Node.Deferred.fire s t).run :=
  Node.asks_fire t rfl (fun _ => rfl) rfl fun _ _ => rfl

theorem prompt_resync (s : Node.Shared) : Prompt (Node.Deferred.resync s).run :=
  Node.asks_resync (fun _ => rfl) (fun _ _ => rfl) fun _ => rfl

theorem prompt_round (s : Node.Shared) (stop : SignalId) (last : Nat) :
    Prompt (Node.Deferred.round s stop last) :=
  Node.asks_round rfl rfl (prompt_resync s) fun _ =>
    Node.asks_rest rfl (fun _ => rfl) (prompt_fire s) fun _ => rfl

theorem exists_performs (node : Setup) (W : World) (act : Act) : ∃ W', Performs node W act W' := by
  cases act with
  | route source d =>
    obtain ⟨_, W', run⟩ := (prompt_route node.shared source.broker d).exists_runs W
    exact ⟨W', 0, run⟩
  | fire now last =>
    obtain ⟨next, W', run⟩ := (prompt_round node.shared 0 last).exists_runs W
    exact ⟨W', 0, next, run⟩
  | reload => exact ⟨_, 0, _, reload_run.mpr ⟨rfl, rfl⟩⟩
  | restart => exact ⟨_, 0, _, reload_run.mpr ⟨rfl, rfl⟩⟩

end BrokeredCalls.Solo
