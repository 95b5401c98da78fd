import BrokeredCalls.Proofs.Lifetime.World
import BrokeredCalls.Proofs.Shutdown.Script

/-!
Runs of a node that can be computed, while its registry changes and its brokers fail as the script says.
-/

namespace BrokeredCalls.Lifetime

open Network (Ending Job Operation Trail round)
open Node (Effect Routine Shared)
open Shutdown (StoreId)

inductive Move where
  | register (c : Registration)
  | begin (o : Operation)
  | turn (k : Nat)
  | fail (k : Nat)

structure Turn where
  job : Job
  trail : Trail
  exchange : Exchange Node.interface
  after : World

variable (s : Shared) (storeOf : BrokerId → StoreId)

namespace World

variable (w : World)

def answered (k : Nat) (j : Job) (tr : Trail) (r : Effect) (next : r.Answer → Routine Ending)
    (a : r.Answer) (w₁ : Shutdown.World) : World :=
  { w with toWorld := w.toWorld.served ⟨s, w.registry⟩ w₁ k j tr r a (next a) }

def turn? (k : Nat) : Option Turn :=
  match w.tasks[k]? with
  | some ⟨j, .ask r next, tr⟩ =>
    (w.toWorld.answer? ⟨s, w.registry⟩ storeOf r).map fun (a, w₁) =>
      ⟨j, tr, ⟨r, a⟩, w.answered s k j tr r next a w₁⟩
  | _ => none

def move? : Move → Option World
  | .register c => some { w with registry := c.apply w.registry }
  | .begin o => if o.alters = none then some (w.requested s o) else none
  | .turn k => match w.tasks[k]? with
    | some ⟨.loop l, .done (.again l'), tr⟩ =>
      some { w with toWorld := w.toWorld.put k ⟨.loop l, round s l', tr⟩ }
    | _ => (w.turn? s storeOf k).map (·.after)
  | .fail k => match w.tasks[k]? with
    | some ⟨j, .ask r next, tr⟩ =>
      (failure? (.transport "") r).map fun a => w.answered s k j tr r next a w.toWorld
    | _ => none

/-- A move that cannot be made is left out. -/
def play : World → List Move → World
  | w, [] => w
  | w, m :: ms => play ((w.move? s storeOf m).getD w) ms

end World

variable {s : Shared} {storeOf : BrokerId → StoreId} {w w' : World}

theorem served_of_turn? {k : Nat} {t : Turn} (h : w.turn? s storeOf k = some t) :
    Served s storeOf w k t.job t.trail t.exchange t.after := by
  unfold World.turn? at h
  split at h
  · next r next tr here =>
    obtain ⟨⟨a, w₁⟩, answered, same⟩ := Option.map_eq_some_iff.mp h
    cases same
    exact .intro (x := ⟨r, a⟩) here (.met (Shutdown.serves_of_answer? answered))
  · cases h

theorem Step.of_move {m : Move} (h : w.move? s storeOf m = some w') : Step s storeOf w w' := by
  cases m with
  | register c =>
    cases h
    exact .register c
  | begin o =>
    simp only [World.move?] at h
    split at h
    · next alone =>
      cases h
      exact .begin o alone
    · cases h
  | turn k =>
    simp only [World.move?] at h
    split at h
    · next here =>
      cases h
      exact .again here
    · obtain ⟨t, turned, rfl⟩ := Option.map_eq_some_iff.mp h
      exact .serve (served_of_turn? turned)
  | fail k =>
    simp only [World.move?] at h
    split at h
    · next r next tr here =>
      obtain ⟨a, failure, same⟩ := Option.map_eq_some_iff.mp h
      cases same
      exact .serve (.intro (x := ⟨r, a⟩) here (.failed _ rfl failure))
    · cases h

theorem Later.play (w : World) (ms : List Move) : Later s storeOf w (w.play s storeOf ms) := by
  induction ms generalizing w with
  | nil => exact .now
  | cons m ms ih =>
    unfold World.play
    cases hm : w.move? s storeOf m with
    | none => exact ih w
    | some w' => exact (Later.step .now (.of_move hm)).trans (ih w')

def turns (k count : Nat) : List Move := List.replicate count (.turn k)

def World.new (r : Registry) : World := ⟨.new ⟨⟨0⟩, 0⟩, r⟩

def pair : Shared := ⟨[⟨"a", 0, "n"⟩, ⟨"b", 1, "n"⟩], .default⟩

def echo : Handler := .raw (fun _ => .null) .ok

def hosting : Registry := Registry.empty.register "a" "s" echo

theorem reachable_play (r : Registry) (ms : List Move) :
    Reachable s storeOf ((World.new r).play s storeOf ms) :=
  Reachable.later (.fresh (Shutdown.fresh_new _)) (.play _ ms)

end BrokeredCalls.Lifetime
