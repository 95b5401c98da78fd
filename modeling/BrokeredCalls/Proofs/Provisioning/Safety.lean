import BrokeredCalls.Proofs.Provisioning.Interleaving

/-!
What racing provisionings come to. Each ends well, or finds its queue deleted behind its last
placeholder. A group is created once in the life of a queue, and no provisioning that comes later takes
from it what it has still to be given.
-/

namespace BrokeredCalls.Provisioning

open Broker (Call ensureGroup)

/-- How a provisioning ended: with the group attached at its last call, or because the queue was
deleted behind its last placeholder. -/
inductive Ended (i : Nat) (q g : String) (history : List Event) : Except Error Unit → Prop
  | attached (others past : List Event) (e : Event) (cut : history = others ++ e :: past)
    (last : Foreign i others) (own : e.owner = some i) (attached : e.made.after.carries q g = true) :
    Ended i q g history (.ok ())
  | deleted (others between older : List Event) (e p d : Event)
    (cut : history = others ++ e :: (between ++ p :: older)) (last : Foreign i others)
    (own : e.owner = some i) (creates : e.made.action = .call (.createGroup q g))
    (foreign : Foreign i between) (placed : p.owner = some i)
    (places : p.made.action = .call (.appendPlaceholder q)) (later : d ∈ between)
    (deletes : d.made.action = .delete q) : Ended i q g history (.error (.missingQueue q))

structure Provided (S : State) (q g : String) (newer : List Event) (e : Event) (older : List Event) :
    Prop where
  cut : S.history = newer ++ e :: older
  attaches : e.made.Attaches q g
  once : ∀ u ∈ newer ++ older, ¬ u.made.Attaches q g
  account : ∃ since delivered : List Hub.Entry,
    Hub.appendedTo q (Hub.deeds (newer.map Event.made)) = since.map Hub.Entry.noted ∧
    Hub.deliveredTo g q (Hub.deeds (S.history.map Event.made)) =
      delivered.map (Hub.Entry.delivery q) ∧
    since.Perm (delivered ++ Hub.evictedFrom g q (S.history.map Event.made) ++ S.hub.undelivered g q)

namespace Sound

variable {i : Nat} {q g : String} {r : Except Error Unit}

theorem ended (s : Sound S) (here : S.tasks i = some ⟨q, g, .done r⟩) : Ended i q g S.history r := by
  obtain ⟨past, since, others, cut, last, -, course⟩ := (s.underway here).course
  have run := s.run
  rw [cut] at run ⊢
  have outcome : Outcome i q g r since := ensureGroup_outcome (course r since ⟨rfl, rfl⟩)
  cases outcome with
  | granted e rest own attached => exact .attached others rest e rfl last own attached
  | refused e p between older own creates missing foreign placed places there =>
    simp only [List.map_append, List.map_cons] at run
    obtain ⟨h₁, run, -⟩ := run.split
    obtain ⟨run, -, -⟩ := run.last
    obtain ⟨h₂, hold, run⟩ := run.split
    obtain ⟨-, -, rfl⟩ := hold.last
    obtain ⟨t, ht, deletes⟩ := run.queue_kept there missing
    obtain ⟨d, later, rfl⟩ := List.mem_map.mp ht
    exact .deleted others between older e p d rfl last own creates foreign placed places later deletes

theorem attached_once (s : Sound S) {newer between older : List Event} {e e' : Event}
    (cut : S.history = newer ++ e' :: (between ++ e :: older)) (first : e.made.Attaches q g)
    (again : e'.made.Attaches q g) : ∃ d ∈ between, d.made.action = .delete q := by
  have run := s.run
  rw [cut] at run
  simp only [List.map_append, List.map_cons] at run
  obtain ⟨h₁, run, -⟩ := run.split
  obtain ⟨t, ht, deletes⟩ := run.attached_once first again
  obtain ⟨d, hd, rfl⟩ := List.mem_map.mp ht
  exact ⟨d, hd, deletes⟩

theorem there_of_attached (s : Sound S) {others past : List Event} {e : Event}
    (cut : S.history = others ++ e :: past) (kept : ∀ e ∈ S.history, e.made.action ≠ .delete q)
    (attached : e.made.after.carries q g = true) : S.hub.cursor? q g ≠ none := by
  have run := s.run
  rw [cut, List.map_append, List.map_cons] at run
  obtain ⟨h₁, hold, run⟩ := run.split
  obtain ⟨-, -, rfl⟩ := hold.last
  refine run.attached (fun t ht => ?_) ?_
  · obtain ⟨u, hu, rfl⟩ := List.mem_map.mp ht
    exact kept u (cut ▸ List.mem_append_left _ hu)
  · rwa [Hub.carries_eq, Option.isSome_iff_ne_none] at attached

theorem account (s : Sound S) (kept : ∀ e ∈ S.history, e.made.action ≠ .delete q)
    {newer older : List Event} {e : Event} (cut : S.history = newer ++ e :: older)
    (attaches : e.made.Attaches q g) : ∃ since delivered : List Hub.Entry,
      Hub.appendedTo q (Hub.deeds (newer.map Event.made)) = since.map Hub.Entry.noted ∧
      Hub.deliveredTo g q (Hub.deeds (S.history.map Event.made)) =
        delivered.map (Hub.Entry.delivery q) ∧
      since.Perm (delivered ++ Hub.evictedFrom g q (S.history.map Event.made) ++
        S.hub.undelivered g q) := by
  have undeleted : ∀ t ∈ S.history.map Event.made, t.action ≠ .delete q :=
    List.forall_mem_map.mpr kept
  obtain ⟨earlier, since, delivered, booked⟩ := s.run.booked rfl undeleted g
  refine ⟨since, delivered, ?_, booked.delivered, booked.account.partition⟩
  have run := s.run
  rw [cut, List.map_append, List.map_cons] at run
  obtain ⟨h₁, run, -⟩ := run.split
  obtain ⟨run, does, -⟩ := run.last
  obtain ⟨deed, -⟩ := Hub.created_of_attaches does attaches
  have creates : e.made.deed.creates g q = true := by
    rw [deed]
    simp [Hub.Deed.creates]
  have first : (Hub.deeds (older.map Event.made)).any (Hub.Deed.creates g q) = false := by
    obtain ⟨_, _, _, before⟩ := run.booked rfl (fun t ht => undeleted t (by simp [cut, ht])) g
    rw [before.created, ← Hub.cursor?_eq, attaches.1]
    rfl
  rw [← booked.recent, cut, ← Hub.appendedSince_append creates first]
  simp [Hub.deeds]

theorem provided (s : Sound S) (kept : ∀ e ∈ S.history, e.made.action ≠ .delete q)
    (there : S.hub.cursor? q g ≠ none) : ∃ newer e older, Provided S q g newer e older := by
  obtain ⟨t, ht, attaches⟩ := s.run.exists_attaches rfl there
  obtain ⟨e, he, rfl⟩ := List.mem_map.mp ht
  obtain ⟨newer, older, cut⟩ := List.append_of_mem he
  refine ⟨newer, e, older, cut, attaches, fun u hu again => ?_, s.account kept cut attaches⟩
  rcases List.mem_append.mp hu with hu | hu
  · obtain ⟨newest, between, rfl⟩ := List.append_of_mem hu
    rw [List.append_assoc, List.cons_append] at cut
    obtain ⟨d, hd, deletes⟩ := s.attached_once cut attaches again
    exact kept d (by simp [cut, hd]) deletes
  · obtain ⟨between, oldest, rfl⟩ := List.append_of_mem hu
    obtain ⟨d, hd, deletes⟩ := s.attached_once cut again attaches
    exact kept d (by simp [cut, hd]) deletes

theorem undisturbed (s : Sound S) {task : Task} (here : S.tasks i = some task)
    (carried : ∀ e ∈ S.history, e.owner = some i → e.made.before.carries task.queue task.group = true) :
    ∀ e ∈ S.history, e.owner = some i → e.made.after = e.made.before := by
  intro e he own
  have u := s.underway here
  obtain ⟨past, since, others, cut, last, fresh, course⟩ := u.course
  have mem : e ∈ since := by
    rw [cut] at he
    exact (List.mem_append.mp he).resolve_left fun foreign => last e foreign own
  obtain ⟨r, after, run, held⟩ := exists_runs_carried u.asks (carried e he own)
    fun e he => carried e (cut ▸ List.mem_append_right others he)
  exact (ensureGroup_undisturbed (course r after run) fresh held).2 e
    ((suffix_of_runs run).subset mem) own

theorem moves (s : Sound S) {c : Call} {next : Except Error c.Value → Program Broker.interface _}
    (here : S.tasks i = some ⟨q, g, .ask c next⟩) (now : Moment) :
    ∃ r h, Step S ((S.put i ⟨q, g, next r⟩).record (some i) ⟨S.hub, now, .call c, r, h⟩) := by
  obtain ⟨r, h, served, -⟩ := (s.underway here).asks.1.served S.hub now now.clock
  exact ⟨r, h, .call here served⟩

theorem callsOf_le (s : Sound S) (i : Nat) : (callsOf i S.history).length ≤ 6 := by
  have standing := s.standing i
  cases here : S.tasks i with
  | none =>
    rw [here] at standing
    rw [callsOf_eq_nil standing]
    exact Nat.zero_le 6
  | some task =>
    obtain ⟨n, -, le⟩ := (s.underway here).within
    exact Nat.le_trans (Nat.le_add_right _ n) le

end Sound

structure Safe (S : State) : Prop where
  moves : ∀ i q g c next, S.tasks i = some ⟨q, g, .ask c next⟩ →
    ∀ now, ∃ r h, Step S ((S.put i ⟨q, g, next r⟩).record (some i) ⟨S.hub, now, .call c, r, h⟩)
  brief : ∀ i, (callsOf i S.history).length ≤ 6
  ended : ∀ i q g r, S.tasks i = some ⟨q, g, .done r⟩ → Ended i q g S.history r
  undisturbed : ∀ i task, S.tasks i = some task →
    (∀ e ∈ S.history, e.owner = some i → e.made.before.carries task.queue task.group = true) →
    ∀ e ∈ S.history, e.owner = some i → e.made.after = e.made.before
  keeps : ∀ e ∈ S.history, e.owner ≠ none → Keeps e.made.before e.made.after ∧
    ∀ g q, e.made.before.undelivered g q <+: e.made.after.undelivered g q
  /-- A group comes to a queue at its last id, only its reads move it on, and it comes a second time
  only if the queue was deleted. -/
  created : ∀ e ∈ S.history, ∀ q g, e.made.Attaches q g →
    e.made.deed = ⟨.call (.createGroup q g), .ok ()⟩ ∧
      ∃ Q, e.made.before.queues.find? q = some Q ∧ e.made.after.cursor? q g = some Q.lastId
  moved : ∀ e ∈ S.history, ∀ q g c, e.made.before.cursor? q g = some c →
    e.made.action ≠ .delete q → ¬ e.made.action.Reads g → e.made.after.cursor? q g = some c
  once : ∀ newer between older e e', S.history = newer ++ e' :: (between ++ e :: older) →
    ∀ q g, e.made.Attaches q g → e'.made.Attaches q g → ∃ d ∈ between, d.made.action = .delete q
  undeleted : ∀ q, (∀ e ∈ S.history, e.made.action ≠ .delete q) →
    ∀ i g r, S.tasks i = some ⟨q, g, .done r⟩ →
      r = .ok () ∧ ∃ newer e older, Provided S q g newer e older

theorem Reachable.safe {S : State} (reachable : Reachable S) : Safe S where
  moves _ _ _ _ _ here now := reachable.sound.moves here now
  brief i := reachable.sound.callsOf_le i
  ended _ _ _ _ here := reachable.sound.ended here
  undisturbed _ _ here carried := reachable.sound.undisturbed here carried
  keeps e he own :=
    have keeps := reachable.sound.keeps e he own
    ⟨keeps, keeps.undelivered⟩
  created e he _ _ attaches :=
    Hub.created_of_attaches (reachable.sound.run.does_of_mem (List.mem_map_of_mem he)) attaches
  moved e he _ _ _ here kept unread :=
    Hub.cursor?_of_does (reachable.sound.run.does_of_mem (List.mem_map_of_mem he)) here kept unread
  once _ _ _ _ _ cut _ _ first again := reachable.sound.attached_once cut first again
  undeleted q kept i g r here := by
    cases reachable.sound.ended here with
    | attached others past e cut last own attached =>
      have there := reachable.sound.there_of_attached cut kept attached
      exact ⟨rfl, reachable.sound.provided kept there⟩
    | deleted others between older e p d cut last own creates foreign placed places later deletes =>
      exact absurd deletes (kept d (by simp [cut, later]))

namespace Racing

inductive Turn where
  | begin (i : Nat) (queue group : String)
  | call (i : Nat)
  | other (a : Hub.Action)

def now : Moment := ⟨⟨0⟩, 0⟩

/-- A turn that cannot be taken is passed over. -/
def take (S : State) : Turn → State
  | .begin i q g =>
    match S.tasks i with
    | none => S.put i ⟨q, g, (ensureGroup q g).run⟩
    | some _ => S
  | .call i =>
    match S.tasks i with
    | some ⟨q, g, .ask c next⟩ =>
      match S.hub.serve now now.clock c with
      | some (r, h) => (S.put i ⟨q, g, next r⟩).record (some i) ⟨S.hub, now, .call c, r, h⟩
      | none => S
    | _ => S
  | .other a =>
    match S.hub.act? now a with
    | some (r, h) => S.record none ⟨S.hub, now, a, r, h⟩
    | none => S

theorem reachable_take {S : State} (reachable : Reachable S) (turn : Turn) :
    Reachable (take S turn) := by
  cases turn with
  | begin i q g =>
    simp only [take]
    split
    · next free => exact reachable.step (.begin i q g free)
    · exact reachable
  | call i =>
    simp only [take]
    split
    · next here =>
      split
      · next served => exact reachable.step (.call here served)
      · exact reachable
    · exact reachable
  | other a =>
    simp only [take]
    split
    · next does => exact reachable.step (.other (Hub.does_of_act does))
    · exact reachable

theorem reachable_foldl {S : State} (reachable : Reachable S) (turns : List Turn) :
    Reachable (turns.foldl take S) := by
  induction turns generalizing S with
  | nil => exact reachable
  | cons turn turns ih => exact ih (reachable_take reachable turn)

def entry : Envelope := .immediate "q" [7]

/-- Two provisionings both find no queue, and an entry comes between the first creation of the group
and the second placeholder; a third is deprived of its queue again and again. -/
def turns : List Turn :=
  [.begin 0 "q" "g", .begin 1 "q" "g", .call 0, .call 1, .call 0, .call 0, .call 0,
    .other (.call (.append "q" entry 10)), .call 1, .call 1,
    .begin 2 "r" "g", .call 2, .call 2, .other (.delete "r"), .call 2, .call 2, .call 2,
    .other (.delete "r"), .call 2]

def state : State := turns.foldl take .start

theorem reachable : Reachable state := reachable_foldl .start turns

end Racing

theorem safe_racing :
    Racing.state.tasks 0 = some ⟨"q", "g", .done (.ok ())⟩ ∧
      Racing.state.tasks 1 = some ⟨"q", "g", .done (.ok ())⟩ ∧
      Racing.state.tasks 2 = some ⟨"r", "g", .done (.error (.missingQueue "r"))⟩ ∧
      (Racing.state.hub.undelivered "g" "q").map (·.envelope) =
        [Racing.entry, .placeholder "q"] ∧
      Safe Racing.state :=
  ⟨by with_unfolding_all rfl, by with_unfolding_all rfl, by with_unfolding_all rfl, by decide +kernel,
    Racing.reachable.safe⟩

end BrokeredCalls.Provisioning
