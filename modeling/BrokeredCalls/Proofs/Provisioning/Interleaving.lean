import BrokeredCalls.Proofs.Provisioning.Course

/-!
Provisionings that race on one store, with appends, reads and deletions by others between their calls.
None of them undoes what another has done: a group that is there is never moved by a provisioning, and
nothing is taken from a queue.
-/

namespace BrokeredCalls.Provisioning

open Broker (Call ensureGroup)
open Hub (Transition)
open Program (Asks Runs Within)

/-- Nothing goes from a queue, and every group stays where it is. -/
structure Keeps (h h' : Hub) : Prop where
  cursors : ∀ q g c, h.cursor? q g = some c → h'.cursor? q g = some c
  entries : ∀ q, (h.queueAt q).entries <+: (h'.queueAt q).entries

namespace Keeps

variable {h h' : Hub}

theorem refl (h : Hub) : Keeps h h := ⟨fun _ _ _ => id, fun _ => List.prefix_refl _⟩

theorem undelivered (k : Keeps h h') (g q : String) : h.undelivered g q <+: h'.undelivered g q := by
  unfold Hub.undelivered
  cases hc : h.cursor? q g with
  | none =>
    rw [Hub.cursor?_eq] at hc
    rw [Hub.Queue.undelivered_of_none hc]
    exact List.nil_prefix
  | some c =>
    have hc' := k.cursors q g c hc
    rw [Hub.cursor?_eq] at hc hc'
    rw [Hub.Queue.undelivered_of_cursor hc, Hub.Queue.undelivered_of_cursor hc']
    exact (k.entries q).filter _

theorem appendPlaceholder (h : Hub) (now : Moment) (queue : String) :
    Keeps h (h.append now queue (.placeholder queue) none).2 := by
  refine ⟨fun q g c hc => ?_, fun q => ?_⟩
  · rw [Hub.cursor?_eq] at hc ⊢
    rw [Hub.queueAt_append]
    split <;> exact hc
  · rw [Hub.queueAt_append]
    split
    · exact List.prefix_append _ _
    · exact List.prefix_refl _

theorem createGroup {queue : String} {Q : Hub.Queue} (there : h.queues.find? queue = some Q)
    (group : String) : Keeps h { h with queues := h.queues.set queue (Q.createGroup group) } := by
  have here : h.queueAt queue = Q := by rw [Hub.queueAt, there, Option.getD_some]
  refine ⟨fun q g c hc => ?_, fun q => ?_⟩
  · rw [Hub.cursor?_eq] at hc ⊢
    rw [Hub.queueAt_set]
    split
    · next heq =>
      rw [heq, here] at hc
      rw [Hub.Queue.find?_createGroup]
      split
      · next same =>
        rw [← same, hc]
        rfl
      · exact hc
    · exact hc
  · rw [Hub.queueAt_set]
    split
    · next heq =>
      have same : (Q.createGroup group).entries = (h.queueAt q).entries := by
        rw [heq, here, Hub.Queue.entries_createGroup]
      exact same ▸ List.prefix_refl _
    · exact List.prefix_refl _

end Keeps

theorem Provisions.served {q g : String} {c : Call} (asked : Provisions q g c) (h : Hub) (now : Moment)
    (deadline : Nat) : ∃ r h', h.serve now deadline c = some (r, h') ∧ Keeps h h' := by
  cases asked with
  | look => exact ⟨_, _, rfl, .refl h⟩
  | place => exact ⟨_, _, rfl, .appendPlaceholder h now q⟩
  | list => exact ⟨_, _, rfl, .refl h⟩
  | create =>
    simp only [Hub.serve, Hub.createGroup]
    cases there : h.queues.find? q with
    | none => exact ⟨_, _, rfl, .refl h⟩
    | some Q => exact ⟨_, _, rfl, .createGroup there g⟩

theorem Provisions.keeps {q g : String} {c : Call} (asked : Provisions q g c) {h h' : Hub}
    {now : Moment} {deadline : Nat} {r : Except Error c.Value}
    (served : h.serve now deadline c = some (r, h')) : Keeps h h' := by
  obtain ⟨r₁, h₁, served₁, keeps⟩ := asked.served h now deadline
  obtain ⟨-, rfl⟩ := Prod.mk.inj (Option.some.inj (served.symm.trans served₁))
  exact keeps

theorem exists_runs_carried {i : Nat} {q g : String} {p : Program Broker.interface (Except Error Unit)}
    (asks : Asks (Provisions q g) p) {h : Hub} (carried : h.carries q g = true) {past : List Event}
    (held : ∀ e ∈ past, e.owner = some i → e.made.before.carries q g = true) :
    ∃ r after, Runs (Among i) p past r after ∧
      ∀ e ∈ after, e.owner = some i → e.made.before.carries q g = true := by
  induction p generalizing past with
  | done r => exact ⟨r, past, ⟨rfl, rfl⟩, held⟩
  | ask c next ih =>
    obtain ⟨a, h', served, -⟩ := asks.1.served h ⟨⟨0⟩, 0⟩ 0
    obtain ⟨r, after, run, held⟩ := ih a (asks.2 a)
      (List.forall_mem_cons.mpr ⟨fun _ => carried, held⟩ :
        ∀ e ∈ ⟨some i, ⟨h, ⟨⟨0⟩, 0⟩, .call c, a, h'⟩⟩ :: past, _)
    exact ⟨r, after, ⟨a, _, ⟨[], h, _, 0, h', .nil i, served, rfl⟩, run⟩, held⟩

structure Task where
  queue : String
  group : String
  rest : Program Broker.interface (Except Error Unit)

structure State where
  hub : Hub
  tasks : Nat → Option Task
  /-- Newest first. -/
  history : List Event

namespace State

def start : State := ⟨.empty, fun _ => none, []⟩

def put (S : State) (i : Nat) (task : Task) : State :=
  { S with tasks := fun j => if j = i then some task else S.tasks j }

theorem put_self (S : State) (i : Nat) (task : Task) : (S.put i task).tasks i = some task := if_pos rfl

theorem put_other {S : State} {i j : Nat} {task : Task} (h : j ≠ i) :
    (S.put i task).tasks j = S.tasks j := if_neg h

def record (S : State) (owner : Option Nat) (t : Transition) : State :=
  { S with hub := t.after, history := ⟨owner, t⟩ :: S.history }

end State

/-- Anyone may begin a provisioning at any time, and any of those begun may make its next call, on an
open handle. Others do to the store what they like. -/
inductive Step (S : State) : State → Prop
  | begin (i : Nat) (q g : String) (free : S.tasks i = none) :
    Step S (S.put i ⟨q, g, (ensureGroup q g).run⟩)
  | call {i : Nat} {q g : String} {c : Call} {next : Except Error c.Value → Program Broker.interface _}
    {now : Moment} {deadline : Nat} {r : Except Error c.Value} {h : Hub}
    (here : S.tasks i = some ⟨q, g, .ask c next⟩) (served : S.hub.serve now deadline c = some (r, h)) :
    Step S ((S.put i ⟨q, g, next r⟩).record (some i) ⟨S.hub, now, .call c, r, h⟩)
  | other {now : Moment} {a : Hub.Action} {r : a.Result} {h : Hub} (does : Hub.Does S.hub now a r h) :
    Step S (S.record none ⟨S.hub, now, a, r, h⟩)

inductive Reachable : State → Prop
  | start : Reachable .start
  | step {S S' : State} (earlier : Reachable S) (step : Step S S') : Reachable S'

def callsOf (i : Nat) (es : List Event) : List Event := es.filter (·.owner = some i)

/-- A provisioning on its way: what is left of it, run from where it stands now, is a run of the whole
from where it began. -/
structure Underway (i : Nat) (history : List Event) (task : Task) : Prop where
  course : ∃ past since others, history = others ++ since ∧ Foreign i others ∧ Foreign i past ∧
    ∀ r after, Runs (Among i) task.rest since r after →
      Runs (Among i) (ensureGroup task.queue task.group).run past r after
  asks : Asks (Provisions task.queue task.group) task.rest
  within : ∃ n, Within n task.rest ∧ (callsOf i history).length + n ≤ 6

def Standing (i : Nat) (history : List Event) : Option Task → Prop
  | none => Foreign i history
  | some task => Underway i history task

structure Sound (S : State) : Prop where
  run : Hub.Run .empty (S.history.map Event.made) S.hub
  keeps : ∀ e ∈ S.history, e.owner ≠ none → Keeps e.made.before e.made.after
  standing : ∀ i, Standing i S.history (S.tasks i)

theorem callsOf_eq_nil {i : Nat} {es : List Event} (foreign : Foreign i es) : callsOf i es = [] :=
  List.filter_eq_nil_iff.mpr fun e he => by simpa using foreign e he

namespace Underway

variable {i : Nat} {history : List Event} {q g : String}

theorem begin (fresh : Foreign i history) : Underway i history ⟨q, g, (ensureGroup q g).run⟩ where
  course := ⟨history, history, [], rfl, .nil i, fresh, fun _ _ => id⟩
  asks := asks_ensureGroup
  within := ⟨6, within_ensureGroup, by rw [callsOf_eq_nil fresh]; exact Nat.le_refl 6⟩

theorem other {task : Task} (u : Underway i history task) {e : Event} (other : e.owner ≠ some i) :
    Underway i (e :: history) task where
  course := by
    obtain ⟨past, since, others, rfl, foreign, fresh, course⟩ := u.course
    exact ⟨past, since, e :: others, rfl, foreign.cons other, fresh, course⟩
  asks := u.asks
  within := by
    have same : callsOf i (e :: history) = callsOf i history := by simp [callsOf, other]
    rw [same]
    exact u.within

theorem call {c : Call} {next : Except Error c.Value → Program Broker.interface _}
    (u : Underway i history ⟨q, g, .ask c next⟩) {h h' : Hub} {now : Moment} {deadline : Nat}
    {r : Except Error c.Value} (served : h.serve now deadline c = some (r, h')) :
    Underway i (⟨some i, ⟨h, now, .call c, r, h'⟩⟩ :: history) ⟨q, g, next r⟩ where
  course := by
    obtain ⟨past, since, others, rfl, foreign, fresh, course⟩ := u.course
    refine ⟨past, _, [], rfl, .nil i, fresh, fun b after run => course b after ⟨r, _, ?_, run⟩⟩
    exact ⟨others, h, now, deadline, h', foreign, served, rfl⟩
  asks := u.asks.2 r
  within := by
    obtain ⟨n, within, le⟩ := u.within
    cases n with
    | zero => exact within.elim
    | succ n =>
      refine ⟨n, within r, ?_⟩
      have one : callsOf i (⟨some i, ⟨h, now, .call c, r, h'⟩⟩ :: history) =
          ⟨some i, ⟨h, now, .call c, r, h'⟩⟩ :: callsOf i history := by simp [callsOf]
      rw [one, List.length_cons]
      omega

end Underway

theorem Standing.other {i : Nat} {history : List Event} {task : Option Task}
    (s : Standing i history task) {e : Event} (other : e.owner ≠ some i) :
    Standing i (e :: history) task := by
  cases task with
  | none => exact Foreign.cons other s
  | some task => exact Underway.other s other

namespace Sound

variable {S S' : State}

theorem underway (s : Sound S) {i : Nat} {task : Task} (here : S.tasks i = some task) :
    Underway i S.history task := by
  have standing := s.standing i
  rwa [here] at standing

theorem step (s : Sound S) (step : Step S S') : Sound S' := by
  cases step with
  | begin i q g free =>
    refine ⟨s.run, s.keeps, fun j => ?_⟩
    have standing := s.standing j
    by_cases hj : j = i
    · subst hj
      rw [free] at standing
      rw [State.put_self]
      exact Underway.begin standing
    · rwa [State.put_other hj]
  | @call i q g c next now deadline r h here served =>
    have u := s.underway here
    refine ⟨.step _ s.run (Hub.does_of_serve served), ?_, fun j => ?_⟩
    · exact List.forall_mem_cons.mpr ⟨fun _ => u.asks.1.keeps served, s.keeps⟩
    · show Standing j _ ((S.put i _).tasks j)
      by_cases hj : j = i
      · subst hj
        rw [State.put_self]
        exact u.call served
      · rw [State.put_other hj]
        exact (s.standing j).other fun heq => hj (Option.some.inj heq).symm
  | other does =>
    refine ⟨.step _ s.run does, ?_, fun j => (s.standing j).other nofun⟩
    exact List.forall_mem_cons.mpr ⟨fun own => absurd rfl own, s.keeps⟩

end Sound

theorem Reachable.sound {S : State} (reachable : Reachable S) : Sound S := by
  induction reachable with
  | start =>
    refine ⟨.start, fun e he => ?_, fun i e he => ?_⟩
    · cases he
    · cases he
  | step _ step ih => exact ih.step step

end BrokeredCalls.Provisioning
