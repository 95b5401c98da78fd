import Mathlib.Logic.Function.Basic
import Mathlib.Logic.Relation
import BrokeredCalls.Proofs.Hub.Waking
import BrokeredCalls.Proofs.Hub.Wellformed

/-!
Calls that fail. Whatever such a call did to the store before its error cannot be seen in it: it dropped
reply lists that had expired and nothing else. Once a handle is shut, every call on it but a close comes to
that, and calls on the other handles do not feel it.
-/

namespace BrokeredCalls

namespace Hub

open Broker (Call)

/-- Only reply lists without a live reply are gone. -/
structure Unseen (now : Moment) (h h' : Hub) : Prop where
  queues : ∀ q, h'.queues.find? q = h.queues.find? q
  hashes : h'.hashes = h.hashes
  lists : ∀ key, h'.lists.find? key = h.lists.find? key ∨ h'.lists.find? key = none ∧ h.Bare now key

theorem Unseen.refl (now : Moment) (h : Hub) : Unseen now h h :=
  ⟨fun _ => rfl, rfl, fun _ => .inl rfl⟩

theorem Wellformed.expired {h : Hub} (wf : Wellformed h) {now : Moment} {key : String}
    (bare : h.Bare now key) : h.liveList? now key = none := by
  cases live : h.liveList? now key with
  | none => rfl
  | some l => exact absurd (bare l live) (wf.lists key l (liveList?_eq_some_iff.mp live).1)

def FirstLacking (h : Hub) (group : String) (queues : List String) (q : String) : Prop :=
  ∃ before after, queues = before ++ q :: after ∧ h.carries q group = false ∧
    ∀ p ∈ before, h.carries p group = true

theorem firstLacking_of_read {h : Hub} {group : String} {queues : List String} {count : Nat} {e : Error}
    (failed : h.read group queues count = .error e) :
    ∃ q, e = .missingQueue q ∧ h.FirstLacking group queues q := by
  unfold read at failed
  split at failed
  · next q hfind =>
    cases failed
    obtain ⟨lacks, before, after, rfl, carried⟩ := List.find?_eq_some_iff_append.mp hfind
    refine ⟨q, rfl, before, after, rfl, by simpa using lacks, fun p hp => ?_⟩
    simpa using carried p hp
  · cases failed

theorem look_error {h h' : Hub} {now : Moment} {c : Call} {e : Error}
    (failed : h.look now c = (some (.error e), h')) : h' = h := by
  cases c with
  | readGroup group consumer queues count block =>
    simp only [look] at failed
    split at failed <;> cases failed
    rfl
  | popReply key timeout =>
    simp only [look] at failed
    split at failed <;> cases failed
  | createGroup queue group =>
    simp only [look, serve] at failed
    cases hc : h.createGroup queue group with
    | ok h₁ =>
      rw [hc] at failed
      cases failed
    | error e =>
      rw [hc] at failed
      exact (Prod.mk.inj failed).2.symm
  | listGroups queue => exact (Prod.mk.inj failed).2.symm
  | _ => cases (Prod.mk.inj failed).1

theorem unseen_of_failed {h h' : Hub} {now : Moment} {c : Call} {e : Error}
    (failed : h.look now c = (some (.error e), h')) : Unseen now h h' := by
  rw [look_error failed]
  exact .refl now h

theorem read_of_look {h h' : Hub} {now : Moment} {group consumer : String} {queues : List String}
    {count : Nat} {block : Duration} {e : Error}
    (failed : h.look now (.readGroup group consumer queues count block) = (some (.error e), h')) :
    h.read group queues count = .error e := by
  simp only [look] at failed
  split at failed
  · next hread =>
    cases failed
    exact hread
  · cases failed
  · cases failed

theorem Queue.Taken.eq_of_nothing {g : String} {Q Q' : Queue} {es : List Entry}
    (taken : Taken g Q es Q') (nothing : es = []) : Q' = Q := by
  induction taken with
  | nothing => rfl
  | more took rest ih =>
    obtain ⟨rfl, rfl⟩ := List.append_eq_nil_iff.mp nothing
    rw [ih rfl]
    obtain ⟨-, -, -, ⟨-, same⟩ | ⟨newest, there, -⟩⟩ := take?_cases took
    · exact same
    · cases there

theorem unseen_takeAll {h h' : Hub} {group : String} {count : Nat} {names : List String} (now : Moment)
    (taken : takeAll group count names h = ([], h')) : Unseen now h h' := by
  obtain ⟨lists, hashes⟩ := takeAll_rest group count names h
  rw [taken] at lists hashes
  refine ⟨fun q => ?_, hashes, fun key => .inl (congrArg (·.find? key) lists)⟩
  rcases taken_of_takeAll taken q with ⟨none, none', -⟩ | ⟨Q, es, Q', there, there', took, given⟩
  · rw [none, none']
  · have nothing : es = [] := List.map_eq_nil_iff.mp given.symm
    rw [there, there', took.eq_of_nothing nothing]

theorem unseen_popReply {h h' : Hub} {now : Moment} {key : String}
    (popped : h.popReply now key = (none, h')) : Unseen now h h' := by
  have bare := bare_of_popReply popped
  have after : h' = { h with lists := h.lists.erase key } := by
    unfold popReply at popped
    split at popped
    · exact (Prod.mk.inj popped).2.symm
    · exact (Prod.mk.inj popped).2.symm
    · cases popped
    · cases popped
  subst after
  refine ⟨fun _ => rfl, rfl, fun key' => ?_⟩
  simp only [Table.find?_erase]
  split
  · next heq => exact .inr ⟨rfl, heq ▸ bare⟩
  · exact .inl rfl

theorem unseen_of_vain {h h' : Hub} {now : Moment} {c : Call} (vain : h.look now c = (none, h')) :
    Unseen now h h' := by
  cases c with
  | readGroup group consumer queues count block =>
    simp only [look] at vain
    split at vain
    · cases vain
    · next hread =>
      cases vain
      exact unseen_takeAll now (takeAll_of_read hread)
    · cases vain
  | popReply key timeout =>
    simp only [look] at vain
    split at vain
    · cases vain
    · next hpop =>
      cases vain
      exact unseen_popReply hpop
  | _ => exact absurd rfl (waits_of_look vain)

theorem Wellformed.look {h h' : Hub} (wf : Wellformed h) {now : Moment} {c : Call}
    {r : Option (Except Error c.Value)} (looked : h.look now c = (r, h')) : Wellformed h' := by
  cases r with
  | none =>
    obtain ⟨v, does⟩ := does_of_look looked
    exact wf.does does
  | some r =>
    have served := serve_eq_look h now 0 c
    rw [looked] at served
    exact wf.serve served

end Hub

namespace Waking

open Broker (Call)
open Hub (Action Handle Unseen Wellformed FirstLacking)

variable {w w' : World} {i b began : Nat} {a : Action} {s s' : Stage a.Result}

/-- Every stage but those with a result that is no error. -/
def Spotless : (a : Action) → Stage a.Result → Prop
  | .call _, .changed (.ok _) | .call _, .returned (.ok _) => False
  | .delete _, .changed _ | .delete _, .returned _ => False
  | _, _ => True

theorem spotless_error (c : Call) (e : Error) : Spotless (.call c) (.returned (.error e)) := trivial

theorem Section.unseen (moved : Section w b began a s s' w') (spotless : Spotless a s') :
    Spotless a s ∧ Unseen w.now w.hub w'.hub := by
  cases moved with
  | delete queue => exact spotless.elim
  | close => exact spotless.elim
  | @alter c e r h found tells =>
    cases r with
    | ok v => exact spotless.elim
    | error e => exact ⟨trivial, Hub.unseen_of_failed found⟩
  | @find c e r h found silent =>
    cases r with
    | ok v => exact spotless.elim
    | error e => exact ⟨trivial, Hub.unseen_of_failed found⟩
  | miss missed => exact ⟨trivial, Hub.unseen_of_vain missed⟩
  | giveUp empty due => exact spotless.elim
  -- The result that is told is the one that was there.
  | @notify a r =>
    cases a with
    | delete queue => exact spotless.elim
    | call c =>
      cases r with
      | ok v => exact spotless.elim
      | error e => exact ⟨trivial, .refl _ _⟩
  | _ => exact ⟨trivial, .refl _ _⟩

theorem Section.wellformed (moved : Section w b began a s s' w') (wf : Wellformed w.hub) :
    Wellformed w'.hub := by
  cases moved with
  | delete queue =>
    have does : Hub.Does w.hub w.now (.delete queue) (w.hub.deleteQueue queue).1
        (w.hub.deleteQueue queue).2 := rfl
    exact wf.does does
  | alter found tells => exact wf.look found
  | find found silent => exact wf.look found
  | miss missed => exact wf.look missed
  | _ => exact wf

structure Change where
  now : Moment
  before : Hub
  after : Hub

/-- The worlds that come of one with the store `h₀`, with the changes that each task has made since it
began, the newest first. -/
inductive Traced (h₀ : Hub) : World → (Nat → List Change) → Prop
  | new (now : Moment) (handles : Nat → Handle) : Traced h₀ (.new now h₀ handles) fun _ => []
  | pass {w : World} {t : Nat → List Change} (earlier : Traced h₀ w t) (now : Moment)
    (forward : w.now.clock ≤ now.clock) : Traced h₀ { w with now := now } t
  | begin {w : World} {t : Nat → List Change} (earlier : Traced h₀ w t) (i b : Nat) (a : Action)
    (free : w.tasks i = none) :
    Traced h₀ (w.put i (some ⟨b, a, w.now.clock, .start⟩)) (Function.update t i [])
  | move {w w' : World} {t : Nat → List Change} {i : Nat} (earlier : Traced h₀ w t)
    (moved : Move i w w') :
    Traced h₀ w' (Function.update t i (⟨w.now, w.hub, w'.hub⟩ :: t i))
  | abandon {w : World} {t : Nat → List Change} {i b began e : Nat} {c : Call}
    (earlier : Traced h₀ w t) (there : w.tasks i = some ⟨b, .call c, began, .parked e⟩) :
    Traced h₀ (w.put i none) t

theorem Reachable.traced (reachable : Reachable w) : ∃ h₀ t, Traced h₀ w t := by
  induction reachable with
  | new now hub handles => exact ⟨hub, _, .new now handles⟩
  | step _ next ih =>
    obtain ⟨h₀, t, earlier⟩ := ih
    cases next with
    | pass now forward => exact ⟨h₀, _, .pass earlier now forward⟩
    | begin i b a free => exact ⟨h₀, _, .begin earlier i b a free⟩
    | move moved => exact ⟨h₀, _, .move earlier moved⟩
    | abandon there => exact ⟨h₀, _, .abandon earlier there⟩

theorem forall_update {P : Change → Prop} {t : Nat → List Change} {xs : List Change}
    (own : ∀ x ∈ xs, P x) (rest : ∀ j, ∀ x ∈ t j, P x) (j : Nat) :
    ∀ x ∈ Function.update t i xs j, P x := by
  by_cases hj : j = i
  · subst hj
    rw [Function.update_self]
    exact own
  · rw [Function.update_of_ne hj]
    exact rest j

theorem Traced.unseen {h₀ : Hub} {t : Nat → List Change} (traced : Traced h₀ w t) :
    ∀ i b a began s, w.tasks i = some ⟨b, a, began, s⟩ → Spotless a s →
      ∀ x ∈ t i, Unseen x.now x.before x.after := by
  induction traced with
  | new now handles =>
    intro i b a began s there
    cases there
  | pass _ now forward ih => exact ih
  | begin _ j b₁ a₁ free ih =>
    intro i b a began s there spotless
    rw [put_tasks] at there
    by_cases hi : i = j
    · subst hi
      rw [Function.update_self]
      exact List.forall_mem_nil _
    · rw [if_neg hi] at there
      rw [Function.update_of_ne hi]
      exact ih i b a began s there spotless
  | @move w w' t j _ moved ih =>
    intro i b a began s there spotless
    rcases moved.task_cases there with ⟨hi, before⟩ | ⟨rfl, s₁, w₁, before, own, rfl⟩
    · rw [Function.update_of_ne hi]
      exact ih i b a began s before spotless
    · obtain ⟨spotless₁, unseen⟩ := own.unseen spotless
      rw [Function.update_self]
      exact List.forall_mem_cons.mpr ⟨unseen, ih i b a began s₁ before spotless₁⟩
  | @abandon w t j b₁ began₁ e c _ before ih =>
    intro i b a began s there spotless
    rw [put_tasks] at there
    by_cases hi : i = j
    · rw [if_pos hi] at there
      cases there
    · rw [if_neg hi] at there
      exact ih i b a began s there spotless

theorem Traced.wellformed {h₀ : Hub} {t : Nat → List Change} (traced : Traced h₀ w t)
    (wf : Wellformed h₀) : Wellformed w.hub ∧ ∀ i, ∀ x ∈ t i, Wellformed x.before := by
  induction traced with
  | new now handles => exact ⟨wf, fun i => List.forall_mem_nil _⟩
  | pass _ now forward ih => exact ih
  | begin _ i b a free ih => exact ⟨ih.1, forall_update (List.forall_mem_nil _) ih.2⟩
  | @move w w' t i _ moved ih =>
    refine ⟨?_, forall_update (List.forall_mem_cons.mpr ⟨ih.1, ih.2 i⟩) ih.2⟩
    cases moved with
    | mk there moved => exact moved.wellformed ih.1
  | abandon _ there ih => exact ih

theorem Section.missing {group consumer : String} {queues : List String} {count : Nat}
    {block : Duration} {e : Error} {s : Stage (Except Error (List Delivery))}
    (moved : Section w b began (.call (.readGroup group consumer queues count block)) s
      (.returned (.error e)) w') (looking : ∀ r, s ≠ .changed r) (isOpen : w.IsOpen b) :
    w' = w ∧ ∃ q, e = .missingQueue q ∧ w.hub.FirstLacking group queues q := by
  cases moved with
  | refuse atOnce other closed => exact absurd isOpen closed
  | dismiss closed => exact absurd isOpen closed
  | find found silent =>
    have failed := Hub.read_of_look found
    cases Hub.look_error found
    exact ⟨rfl, Hub.firstLacking_of_read failed⟩
  | notify => exact absurd rfl (looking _)

/-- Where a call stands that has not been let past a shut handle, or has been refused there. -/
def Outside (refusal : Error) {c : Call} : Stage (Action.call c).Result → Prop
  | .start | .listening _ | .parked _ => True
  | .returned r => r = .error refusal
  | _ => False

theorem Section.outside {c : Call} {s s' : Stage (Action.call c).Result}
    (moved : Section w b began (.call c) s s' w') (other : c ≠ .close) (closed : ¬ w.IsOpen b)
    (outside : Outside (.brokerClosed (w.handles b).name) s) :
    Outside (.brokerClosed (w.handles b).name) s' ∧ w' = w := by
  cases moved with
  | close => exact absurd rfl other
  | enter atOnce other isOpen => exact absurd isOpen closed
  | allow isOpen => exact absurd isOpen closed
  | refuse | dismiss => exact ⟨rfl, rfl⟩
  | listen | wake => exact ⟨trivial, rfl⟩
  | _ => exact outside.elim

theorem Section.handles (moved : Section w b began a s s' w') (b' : Nat) :
    (w'.handles b').name = (w.handles b').name ∧ (¬ w.IsOpen b' → ¬ w'.IsOpen b') := by
  cases moved with
  | close =>
    by_cases hb : b' = b
    · subst hb
      simp [World.close, World.IsOpen]
    · simp [World.close, World.IsOpen, hb]
  | _ => exact ⟨rfl, id⟩

theorem Step.handles (next : Step w w') (b : Nat) :
    (w'.handles b).name = (w.handles b).name ∧ (¬ w.IsOpen b → ¬ w'.IsOpen b) := by
  cases next with
  | move moved =>
    cases moved with
    | mk there moved => exact moved.handles b
  | _ => exact ⟨rfl, id⟩

theorem not_isOpen_later (closed : ¬ w.IsOpen b) (later : Relation.ReflTransGen Step w w') :
    ¬ w'.IsOpen b := by
  induction later with
  | refl => exact closed
  | tail _ next ih => exact (next.handles b).2 ih

theorem Section.not_isOpen_of_close {s s' : Stage (Action.call .close).Result}
    (moved : Section w b began (.call .close) s s' w') (before : s ≠ .start → ¬ w.IsOpen b) :
    ¬ w'.IsOpen b := by
  by_cases first : s = .start
  · subst first
    cases moved with
    | close => simp [World.close, World.IsOpen]
    | enter _ other | refuse _ other => exact absurd rfl other
    | listen waits => exact absurd rfl waits
  · exact (moved.handles b).2 (before first)

theorem Reachable.not_isOpen (reachable : Reachable w) : ∀ i b began s,
    w.tasks i = some ⟨b, .call .close, began, s⟩ → s ≠ .start → ¬ w.IsOpen b := by
  induction reachable with
  | new now hub handles =>
    intro i b began s there
    cases there
  | step _ next ih =>
    intro i b began s there ran
    rcases next.task_cases there with same | start | ⟨s₁, w₁, before, moved, rfl⟩
    · exact (next.handles b).2 (ih i b began s same ran)
    · exact absurd start ran
    · exact moved.not_isOpen_of_close (ih i b began s₁ before)

structure Barred (w : World) (i b : Nat) (refusal : Error) : Prop where
  named : refusal = .brokerClosed (w.handles b).name
  closed : ¬ w.IsOpen b
  outside : ∀ c began s, w.tasks i = some ⟨b, .call c, began, s⟩ → c ≠ .close → Outside refusal s

theorem Barred.step {refusal : Error} (barred : Barred w i b refusal) (next : Step w w') :
    Barred w' i b refusal where
  named := by
    rw [(next.handles b).1]
    exact barred.named
  closed := (next.handles b).2 barred.closed
  outside c began s there other := by
    rcases next.task_cases there with same | rfl | ⟨s₁, w₁, before, moved, rfl⟩
    · exact barred.outside c began s same other
    · trivial
    · have outside := barred.outside c began s₁ before other
      rw [barred.named] at outside ⊢
      exact (moved.outside other barred.closed outside).1

theorem Barred.later {refusal : Error} (barred : Barred w i b refusal)
    (later : Relation.ReflTransGen Step w w') : Barred w' i b refusal := by
  induction later with
  | refl => exact barred
  | tail _ next ih => exact ih.step next

theorem alone_refused {c : Call} (there : w.tasks i = some ⟨b, .call c, began, .start⟩)
    (other : c ≠ .close) (closed : ¬ w.IsOpen b) :
    ∃ w', Alone i w w' ∧ w'.hub = w.hub ∧ w'.handles b = w.handles b ∧ w'.tasks i =
      some ⟨b, .call c, began, .returned (.error (.brokerClosed (w.handles b).name))⟩ := by
  have served : (w.handles b).serve w.hub w.now (began + c.patience.nanos) c =
      some (.error (.brokerClosed (w.handles b).name), w.handles b, w.hub) := by
    have shut : (w.handles b).closed = true := by simpa [World.IsOpen] using closed
    rw [serve_of_other other, if_pos shut]
  obtain ⟨w', alone, there', hub, handle⟩ := alone_serve there served
  exact ⟨w', alone, hub, handle, there'⟩

/-- A step in which no task on the handle `b` takes part. -/
inductive Apart (b : Nat) (w : World) : World → Prop
  | pass (now : Moment) (forward : w.now.clock ≤ now.clock) : Apart b w { w with now := now }
  | begin (i b' : Nat) (a : Action) (other : b' ≠ b) (free : w.tasks i = none) :
    Apart b w (w.put i (some ⟨b', a, w.now.clock, .start⟩))
  | move {i b' began : Nat} {a : Action} {s s' : Stage a.Result} {w' : World} (other : b' ≠ b)
    (there : w.tasks i = some ⟨b', a, began, s⟩) (moved : Section w b' began a s s' w') :
    Apart b w (w'.put i (some ⟨b', a, began, s'⟩))
  | abandon {i b' began e : Nat} {c : Call} (other : b' ≠ b)
    (there : w.tasks i = some ⟨b', .call c, began, .parked e⟩) : Apart b w (w.put i none)

theorem Apart.step (apart : Apart b w w') : Step w w' := by
  cases apart with
  | pass now forward => exact .pass now forward
  | begin i b' a other free => exact .begin i b' a free
  | move other there moved => exact .move (.mk there moved)
  | abandon other there => exact .abandon there

theorem close_handles {b' : Nat} (other : b' ≠ b) : (w.close b).handles b' = w.handles b' :=
  if_neg other

theorem close_isOpen {b' : Nat} (other : b' ≠ b) : (w.close b).IsOpen b' ↔ w.IsOpen b' := by
  unfold World.IsOpen
  rw [close_handles other]

theorem close_comm {b' : Nat} (other : b' ≠ b) : (w.close b).close b' = (w.close b').close b := by
  unfold World.close
  congr 1
  funext k
  by_cases hk : k = b' <;> by_cases hk' : k = b <;> simp_all [Ne.symm other]

theorem Section.close_other {b' : Nat} (other : b' ≠ b) (moved : Section w b' began a s s' w') :
    Section (w.close b) b' began a s s' (w'.close b) := by
  have isOpen := close_isOpen (w := w) other
  cases moved with
  | delete queue => exact .delete queue
  | close =>
    rw [← close_comm other]
    exact .close
  | enter atOnce different open' => exact .enter atOnce different (isOpen.mpr open')
  | refuse atOnce different closed =>
    rw [← close_handles (w := w) other]
    exact .refuse atOnce different (mt isOpen.mp closed)
  | listen waits => exact .listen waits
  | allow open' => exact .allow (isOpen.mpr open')
  | dismiss closed =>
    rw [← close_handles (w := w) other]
    exact .dismiss (mt isOpen.mp closed)
  | alter found tells => exact .alter found tells
  | find found silent => exact .find found silent
  | miss missed => exact .miss missed
  | giveUp empty due => exact .giveUp empty due
  | park early => exact .park early
  | wake up => exact .wake up
  | notify => exact .notify

theorem Section.of_close_other {b' : Nat} (other : b' ≠ b)
    (moved : Section (w.close b) b' began a s s' w') :
    ∃ w₁, w' = w₁.close b ∧ Section w b' began a s s' w₁ := by
  have isOpen := close_isOpen (w := w) other
  cases moved with
  | delete queue => exact ⟨_, rfl, .delete queue⟩
  | close => exact ⟨_, close_comm other, .close⟩
  | enter atOnce different open' => exact ⟨w, rfl, .enter atOnce different (isOpen.mp open')⟩
  | refuse atOnce different closed =>
    rw [close_handles other]
    exact ⟨w, rfl, .refuse atOnce different (mt isOpen.mpr closed)⟩
  | listen waits => exact ⟨w, rfl, .listen waits⟩
  | allow open' => exact ⟨w, rfl, .allow (isOpen.mp open')⟩
  | dismiss closed =>
    rw [close_handles other]
    exact ⟨w, rfl, .dismiss (mt isOpen.mpr closed)⟩
  | alter found tells => exact ⟨_, rfl, .alter found tells⟩
  | find found silent => exact ⟨_, rfl, .find found silent⟩
  | miss missed => exact ⟨_, rfl, .miss missed⟩
  | giveUp empty due => exact ⟨w, rfl, .giveUp empty due⟩
  | park early => exact ⟨w, rfl, .park early⟩
  | wake up => exact ⟨w, rfl, .wake up⟩
  | notify => exact ⟨_, rfl, .notify⟩

theorem Apart.close (apart : Apart b w w') : Apart b (w.close b) (w'.close b) := by
  cases apart with
  | pass now forward => exact .pass (w := w.close b) now forward
  | begin i b' a other free => exact .begin (w := w.close b) i b' a other free
  | move other there moved => exact .move (w := w.close b) other there (moved.close_other other)
  | abandon other there => exact .abandon (w := w.close b) other there

theorem Apart.of_close (apart : Apart b (w.close b) w') : ∃ w₁, w' = w₁.close b ∧ Apart b w w₁ := by
  cases apart with
  | pass now forward => exact ⟨_, rfl, .pass (w := w) now forward⟩
  | begin i b' a other free => exact ⟨_, rfl, .begin (w := w) i b' a other free⟩
  | move other there moved =>
    obtain ⟨w₁, rfl, before⟩ := moved.of_close_other other
    exact ⟨_, rfl, .move (w := w) other there before⟩
  | abandon other there => exact ⟨_, rfl, .abandon (w := w) other there⟩

theorem apart_close_iff :
    Relation.ReflTransGen (Apart b) (w.close b) w' ↔
      ∃ w₁, w' = w₁.close b ∧ Relation.ReflTransGen (Apart b) w w₁ := by
  constructor
  · intro run
    induction run with
    | refl => exact ⟨w, rfl, .refl⟩
    | tail _ apart ih =>
      obtain ⟨w₁, rfl, run⟩ := ih
      obtain ⟨w₂, rfl, next⟩ := apart.of_close
      exact ⟨w₂, rfl, run.tail next⟩
  · rintro ⟨w₁, rfl, run⟩
    exact run.lift (World.close · b) fun _ _ apart => apart.close

theorem serve_failed {handle handle' : Handle} {h h' : Hub} {now : Moment} {deadline : Nat} {c : Call}
    {e : Error} (failed : handle.serve h now deadline c = some (.error e, handle', h')) :
    handle' = handle ∧ h' = h := by
  by_cases other : c = .close
  · subst other
    cases failed
  rw [serve_of_other other] at failed
  split at failed
  · cases failed
    exact ⟨rfl, rfl⟩
  · obtain ⟨⟨r, h₁⟩, served, heq⟩ := Option.map_eq_some_iff.mp failed
    cases heq
    refine ⟨rfl, ?_⟩
    rw [Hub.serve_eq_look] at served
    cases looked : h.look now c with
    | mk found h₂ =>
      rw [looked] at served
      cases found with
      | some r =>
        cases served
        exact Hub.look_error looked
      | none =>
        dsimp only at served
        split at served
        · obtain ⟨v, -, heq⟩ := Option.map_eq_some_iff.mp served
          cases heq
        · cases served

/-- What failures and shut handles do to a store that came of `h₀`, given the changes of its tasks. -/
structure Harmless (h₀ : Hub) (w : World) (t : Nat → List Change) : Prop where
  atOnce : ∀ b now deadline c e handle h,
    (w.handles b).serve w.hub now deadline c = some (.error e, handle, h) →
      handle = w.handles b ∧ h = w.hub
  failed : ∀ i b c began e, w.tasks i = some ⟨b, .call c, began, .returned (.error e)⟩ →
    ∀ x ∈ t i, Unseen x.now x.before x.after
  expired : Wellformed h₀ → ∀ i, ∀ x ∈ t i, ∀ key, x.before.Bare x.now key →
    x.before.liveList? x.now key = none
  missing : ∀ i b group consumer queues count block began s e w',
    w.tasks i = some ⟨b, .call (.readGroup group consumer queues count block), began, s⟩ →
      Section w b began (.call (.readGroup group consumer queues count block)) s
        (.returned (.error e)) w' → w.IsOpen b →
      w' = w ∧ ∃ q, e = .missingQueue q ∧ w.hub.FirstLacking group queues q
  closed : ∀ i b began s, w.tasks i = some ⟨b, .call .close, began, s⟩ → s ≠ .start →
    ∀ w', Relation.ReflTransGen Step w w' → ¬ w'.IsOpen b
  /-- A call once outside a shut handle is never let in, whatever goes on. -/
  shut : ∀ i b c began s, w.tasks i = some ⟨b, .call c, began, s⟩ → ¬ w.IsOpen b →
    Outside (.brokerClosed (w.handles b).name) s →
    ∀ w', Relation.ReflTransGen Step w w' →
      ∀ c' began' s', w'.tasks i = some ⟨b, .call c', began', s'⟩ → c' ≠ .close →
        Outside (.brokerClosed (w.handles b).name) s'
  refused : ∀ i b c began, w.tasks i = some ⟨b, .call c, began, .start⟩ → c ≠ .close →
    ¬ w.IsOpen b → ∃ w', Alone i w w' ∧ w'.hub = w.hub ∧ w'.handles b = w.handles b ∧
      w'.tasks i = some ⟨b, .call c, began, .returned (.error (.brokerClosed (w.handles b).name))⟩
  others : ∀ b w', Relation.ReflTransGen (Apart b) (w.close b) w' ↔
    ∃ w₁, w' = w₁.close b ∧ Relation.ReflTransGen (Apart b) w w₁

theorem Traced.reachable {h₀ : Hub} {t : Nat → List Change} (traced : Traced h₀ w t) :
    Reachable w := by
  induction traced with
  | new now handles => exact .new now h₀ handles
  | pass _ now forward ih => exact ih.step (.pass now forward)
  | begin _ i b a free ih => exact ih.step (.begin i b a free)
  | move _ moved ih => exact ih.step (.move moved)
  | abandon _ there ih => exact ih.step (.abandon there)

theorem Traced.failures_harmless {h₀ : Hub} {t : Nat → List Change} (traced : Traced h₀ w t) :
    Harmless h₀ w t where
  atOnce b now deadline c e handle h failed := serve_failed failed
  failed i b c began e there := traced.unseen i b _ began _ there (spotless_error c e)
  expired wf i x hx key bare := ((traced.wellformed wf).2 i x hx).expired bare
  missing i b group consumer queues count block began s e w' there moved isOpen := by
    refine moved.missing (fun r heq => ?_) isOpen
    subst heq
    cases (traced.reachable.fits i b _ began _ there : Hub.empty? _ = none)
  closed i b began s there ran w' later :=
    not_isOpen_later (traced.reachable.not_isOpen i b began s there ran) later
  shut i b c began s there closed outside w' later c' began' s' there' other := by
    have barred : Barred w i b (.brokerClosed (w.handles b).name) := by
      refine ⟨rfl, closed, fun c₁ began₁ s₁ there₁ _ => ?_⟩
      rw [there] at there₁
      cases there₁
      exact outside
    exact (barred.later later).outside c' began' s' there' other
  refused i b c began there other closed := alone_refused there other closed
  others b w' := apart_close_iff

namespace Interrupted

def now : Moment := ⟨⟨0⟩, 0⟩

def reader : Call := .readGroup "g" "c" ["q", "q", "r"] 1 ⟨10⟩

def stocked : Hub := (Hub.enact .empty [(now, .call (.createGroup "r" "g")),
  (now, .call (.appendPlaceholder "r")), (now, .call (.createGroup "q" "g")),
  (now, .call (.appendPlaceholder "q"))]).2

theorem traced : ∃ w t, Traced stocked w t ∧
    w.tasks 0 = some ⟨0, .call reader, 0, .returned (.error (.missingQueue "r"))⟩ := by
  have begun : Traced stocked _ _ := (Traced.new now fun _ => .new "b").begin 0 0 (.call reader) rfl
  have listening := begun.move (.mk (put_self ..) (.listen nofun))
  have admitted := listening.move (.mk (put_self ..) (.allow rfl))
  have searched := admitted.move (.mk (put_self ..) (.miss (Prod.ext rfl rfl)))
  have parked := searched.move (.mk (put_self ..) (.park (by decide)))
  have deleting := (parked.begin 1 1 (.delete "r") rfl).move (.mk (put_self ..) (.delete "r"))
  have deleted := deleting.move (.mk (put_self ..) .notify)
  have woken := deleted.move (.mk (i := 0) rfl (.wake (.inl Nat.one_pos)))
  have again := (woken.move (.mk (put_self ..) (.listen nofun))).move (.mk (put_self ..) (.allow rfl))
  have failed := again.move (.mk (put_self ..) (.find (Prod.ext rfl rfl) rfl))
  exact ⟨_, _, failed, rfl⟩

end Interrupted

theorem harmless_interrupted : ∃ w t, Traced Interrupted.stocked w t ∧
    w.tasks 0 = some ⟨0, .call Interrupted.reader, 0, .returned (.error (.missingQueue "r"))⟩ ∧
      Harmless Interrupted.stocked w t := by
  obtain ⟨w, t, traced, there⟩ := Interrupted.traced
  exact ⟨w, t, traced, there, traced.failures_harmless⟩

end Waking
end BrokeredCalls
