import BrokeredCalls.Proofs.Asking
import BrokeredCalls.Proofs.Provisioning.Safety

/-!
A dispatch loop on an open handle, and others that use the store between its calls but delete nothing.
All that the loop does beside its reads keeps every group where it stands and every entry.
-/

namespace BrokeredCalls.Recovery

open Broker (Call ensureGroup)
open Hub (Does Transition touchesQueues)
open Node (Effect Loop Shared onBrokerAttempt)
open Node.Dispatch (handle)
open Program (Asks Runs)
open Provisioning (Among Event Foreign Keeps Provisions)

structure World where
  hub : Hub
  history : List Event

def self : Nat := 0

def World.record (w : World) (owner : Option Nat) (t : Transition) : World :=
  ⟨t.after, ⟨owner, t⟩ :: w.history⟩

inductive Turns (w : World) : World → Prop
  | idle : Turns w w
  | other {w₁ : World} {now : Moment} {a : Hub.Action} {r : a.Result} {h : Hub} (earlier : Turns w w₁)
    (does : Does w₁.hub now a r h) (spares : ∀ q, a ≠ .delete q) :
    Turns w (w₁.record none ⟨w₁.hub, now, a, r, h⟩)

def Own (w : World) (c : Call) (r : Except Error c.Value) (w' : World) : Prop :=
  ∃ now deadline h, w.hub.serve now deadline c = some (r, h) ∧
    w' = w.record (some self) ⟨w.hub, now, .call c, r, h⟩

def Serving : Node.interface.Service World
  | w, .broker _ c, r, w' => ∃ w₁, Turns w w₁ ∧ Own w₁ c r w'
  | w, .readUnlessStopped _ group consumer services count block _, ended, w' =>
    ∃ w₁ r, Turns w w₁ ∧ Own w₁ (.readGroup group consumer services count block) r w' ∧ ended = .value r
  | w, .isRaised _, raised, w' => raised = false ∧ Turns w w'
  | w, _, _, w' => Turns w w'

structure Course (w w' : World) (since : List Event) : Prop where
  history : w'.history = since ++ w.history
  run : Hub.Run w.hub (since.map Event.made) w'.hub
  spares : ∀ e ∈ since, ∀ q, e.made.action ≠ .delete q

variable {w w₁ w' : World} {since since' : List Event}

theorem run_append {h h₁ h' : Hub} {newer older : List Transition} (older_run : Hub.Run h older h₁)
    (newer_run : Hub.Run h₁ newer h') : Hub.Run h (newer ++ older) h' := by
  induction newer_run with
  | start => exact older_run
  | step t _ does ih => exact .step t ih does

namespace Course

theorem refl (w : World) : Course w w [] := ⟨rfl, .start, List.forall_mem_nil _⟩

theorem trans (c : Course w w₁ since) (c' : Course w₁ w' since') : Course w w' (since' ++ since) where
  history := by rw [c'.history, c.history, List.append_assoc]
  run := by
    rw [List.map_append]
    exact run_append c.run c'.run
  spares e he := (List.mem_append.mp he).elim (c'.spares e) (c.spares e)

theorem record {owner : Option Nat} {now : Moment} {a : Hub.Action} {r : a.Result} {h : Hub}
    (does : Does w.hub now a r h) (spares : ∀ q, a ≠ .delete q) :
    Course w (w.record owner ⟨w.hub, now, a, r, h⟩) [⟨owner, ⟨w.hub, now, a, r, h⟩⟩] :=
  ⟨rfl, .step ⟨w.hub, now, a, r, h⟩ .start does, List.forall_mem_singleton.mpr spares⟩

theorem carries (c : Course w w' since) {q g : String} (here : w.hub.carries q g = true) :
    w'.hub.carries q g = true := by
  rw [Hub.carries_eq, Option.isSome_iff_ne_none] at here ⊢
  refine c.run.attached (fun t ht => ?_) here
  obtain ⟨e, he, rfl⟩ := List.mem_map.mp ht
  exact c.spares e he q

end Course

theorem Turns.trans (turns : Turns w w₁) (turns' : Turns w₁ w') : Turns w w' := by
  induction turns' with
  | idle => exact turns
  | other _ does spares ih => exact .other ih does spares

theorem Turns.course (turns : Turns w w') : ∃ since, Course w w' since ∧ ∀ e ∈ since, e.owner = none := by
  induction turns with
  | idle => exact ⟨[], .refl w, List.forall_mem_nil _⟩
  | other _ does spares ih =>
    obtain ⟨since, course, foreign⟩ := ih
    exact ⟨_, course.trans (.record does spares), List.forall_mem_cons.mpr ⟨rfl, foreign⟩⟩

def failed (e : Event) : Bool :=
  match e.owner, e.made.deed with
  | some _, ⟨.call (.readGroup ..), .error _⟩ => true
  | _, _ => false

def succeeded (e : Event) : Bool :=
  match e.owner, e.made.deed with
  | some _, ⟨.call (.readGroup ..), .ok _⟩ => true
  | _, _ => false

def unread (e : Event) : Prop := failed e = false ∧ succeeded e = false

theorem unread_of_foreign {e : Event} (foreign : e.owner = none) : unread e := by
  unfold unread failed succeeded
  rw [foreign]
  exact ⟨rfl, rfl⟩

theorem unread_of_call {owner : Option Nat} {h h' : Hub} {now : Moment} {c : Call}
    {r : Except Error c.Value}
    (other : ∀ group consumer queues count block, c ≠ .readGroup group consumer queues count block) :
    unread ⟨owner, ⟨h, now, .call c, r, h'⟩⟩ := by
  cases c with
  | readGroup group consumer queues count block => exact absurd rfl (other group consumer queues count block)
  | _ => cases owner <;> exact ⟨rfl, rfl⟩

def Handles (g : String) (c : Call) : Prop :=
  (∃ q, Provisions q g c) ∨ touchesQueues c = false ∧ c ≠ .close

theorem Handles.not_read {g : String} {c : Call} (handles : Handles g c) :
    ∀ group consumer queues count block, c ≠ .readGroup group consumer queues count block := by
  rintro group consumer queues count block rfl
  rcases handles with ⟨q, asked⟩ | ⟨untouched, -⟩
  · cases asked
  · cases untouched

theorem Handles.keeps {g : String} {c : Call} (handles : Handles g c) {h h' : Hub} {now : Moment}
    {deadline : Nat} {r : Except Error c.Value} (served : h.serve now deadline c = some (r, h')) :
    Keeps h h' := by
  rcases handles with ⟨q, asked⟩ | ⟨untouched, -⟩
  · exact asked.keeps served
  · have same := Hub.queues_of_serve served untouched
    refine ⟨fun q g c hc => ?_, fun q => ?_⟩
    · unfold Hub.cursor? at hc ⊢
      rwa [same]
    · have alike : h'.queueAt q = h.queueAt q := by rw [Hub.queueAt, Hub.queueAt, same]
      exact alike ▸ List.prefix_refl _

def Mild (w w' : World) : Prop :=
  ∃ since, Course w w' since ∧ ∀ e ∈ since, unread e ∧ (e.owner ≠ none → Keeps e.made.before e.made.after)

theorem Mild.refl (w : World) : Mild w w := ⟨[], .refl w, List.forall_mem_nil _⟩

theorem Mild.trans (m : Mild w w₁) (m' : Mild w₁ w') : Mild w w' := by
  obtain ⟨older, c, before⟩ := m
  obtain ⟨newer, c', after⟩ := m'
  exact ⟨newer ++ older, c.trans c', List.forall_mem_append.mpr ⟨after, before⟩⟩

theorem Turns.mild (turns : Turns w w') : Mild w w' := by
  obtain ⟨since, course, foreign⟩ := turns.course
  exact ⟨since, course, fun e he => ⟨unread_of_foreign (foreign e he), absurd (foreign e he)⟩⟩

theorem Own.course {c : Call} {r : Except Error c.Value} (own : Own w c r w') :
    ∃ now, Course w w' [⟨some self, ⟨w.hub, now, .call c, r, w'.hub⟩⟩] := by
  obtain ⟨now, deadline, h, served, rfl⟩ := own
  exact ⟨now, .record (Hub.does_of_serve served) nofun⟩

theorem Own.mild {g : String} {c : Call} {r : Except Error c.Value} (own : Own w c r w')
    (handles : Handles g c) : Mild w w' := by
  obtain ⟨now, course⟩ := own.course
  obtain ⟨_, deadline, h, served, rfl⟩ := own
  exact ⟨_, course, List.forall_mem_singleton.mpr
    ⟨unread_of_call handles.not_read, fun _ => handles.keeps served⟩⟩

def Handling (g : String) : Effect → Prop
  | .broker _ c => Handles g c
  | .readUnlessStopped .. | .claimSpawn | .releaseSpawn | .launch _ | .raiseStop | .joinWorkers => False
  | _ => True

theorem mild_of_serving {g : String} {e : Effect} {x : e.Answer} (handling : Handling g e)
    (served : Serving w e x w') : Mild w w' := by
  cases e with
  | broker b c =>
    obtain ⟨w₁, turns, own⟩ := served
    exact turns.mild.trans (own.mild handling)
  | readUnlessStopped => exact handling.elim
  | isRaised => exact served.2.mild
  | _ => exact Turns.mild served

theorem mild_of_runs {g : String} {α : Type} {p : Program Node.interface α} {a : α}
    (asks : Asks (Handling g) p) (run : Runs Serving p w a w') : Mild w w' :=
  run.relates Mild.refl (fun _ _ _ => Mild.trans) (fun _ _ _ _ => mild_of_serving) asks

variable {g : String}

theorem asks_pause (s : Shared) (stop : SignalId) :
    Asks (I := Node.interface) (Handling g) (Node.Dispatch.pause s stop) :=
  Node.asks_pause fun _ => trivial

variable (b : BrokerId)

theorem asks_acknowledgeAll (group : String) (ids : List (String × List String)) :
    Asks (I := Node.interface) (Handling g) (Node.Dispatch.acknowledgeAll b group ids) :=
  Node.asks_acknowledgeAll ids fun _ _ => .inr ⟨rfl, nofun⟩

theorem asks_routeAll (s : Shared) (ds : List Delivery) :
    Asks (I := Node.interface) (Handling g) (Node.Dispatch.routeAll s b ds) := by
  induction ds with
  | nil => exact trivial
  | cons d ds ih =>
    refine .bind (Node.asks_route d (fun _ _ => ?_) (fun _ => ?_) ?_ ?_ fun _ => trivial) fun _ => ih
    · exact .inr ⟨rfl, nofun⟩
    · exact .inr ⟨rfl, nofun⟩
    · exact fun _ => trivial
    · exact fun _ => trivial

theorem asks_provision (q : String) :
    Asks (I := Node.interface) (Handling g) (onBrokerAttempt b (ensureGroup q g)).run :=
  .expand (Provisioning.asks_ensureGroup.mono fun _ asked => .request (.inl ⟨q, asked⟩))

theorem asks_handle (s : Shared) (stop : SignalId) (result : Except Error (List Delivery)) :
    Asks (I := Node.interface) (Handling s.config.group) (handle s b stop result) := by
  cases result with
  | ok batch =>
    exact .bind (asks_acknowledgeAll b _ _) fun _ => .bind (asks_routeAll b s batch) fun _ => trivial
  | error e =>
    cases e with
    | missingQueue q =>
      refine .bind (asks_provision b q) fun r => ?_
      cases r with
      | ok _ => exact trivial
      | error _ => exact asks_pause s stop
    | _ => exact asks_pause s stop

end BrokeredCalls.Recovery
