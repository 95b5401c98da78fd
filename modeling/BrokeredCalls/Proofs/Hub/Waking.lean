import BrokeredCalls.Proofs.Hub.Looking

/-!
Calls on a shared store as tasks whose sections interleave. A call that waits begins to listen before it
checks its handle and looks, and parks if it found nothing and has time left. A change is made under
the lock and its notice is given afterwards; a notice wakes everybody who began to listen before it.
As in the store itself, a call's patience is taken to fit the clock that it is added to.
-/

namespace BrokeredCalls.Waking

open Broker (Call)
open Hub (Action Calm Handle empty? wakes)

/-- Where a task stands. The numbers tell after how many notices it began to listen. -/
inductive Stage (α : Type) where
  | start
  | listening (after : Nat)
  | admitted (after : Nat)
  | searched (after : Nat)
  | parked (after : Nat)
  /-- The change is made and its notice not yet given. -/
  | changed (result : α)
  | returned (result : α)

structure Task where
  broker : Nat
  action : Action
  began : Nat
  stage : Stage action.Result

structure World where
  now : Moment
  hub : Hub
  handles : Nat → Handle
  notices : Nat
  tasks : Nat → Option Task

namespace World

def new (now : Moment) (hub : Hub) (handles : Nat → Handle) : World :=
  ⟨now, hub, handles, 0, fun _ => none⟩

def put (w : World) (i : Nat) (t : Option Task) : World :=
  { w with tasks := fun j => if j = i then t else w.tasks j }

def close (w : World) (b : Nat) : World :=
  { w with handles := fun c => if c = b then { w.handles b with closed := true } else w.handles c }

def IsOpen (w : World) (b : Nat) : Prop := (w.handles b).closed = false

/-- Every change was told of. -/
def Settled (w : World) : Prop := ∀ i b a began r, w.tasks i ≠ some ⟨b, a, began, .changed r⟩

def Due (w : World) (began : Nat) (c : Call) : Prop := began + c.patience.nanos ≤ w.now.clock

instance (w : World) (began : Nat) (c : Call) : Decidable (w.Due began c) :=
  inferInstanceAs (Decidable (began + c.patience.nanos ≤ w.now.clock))

end World

/-- What a task on the handle `b` does between two points at which others may come in. -/
inductive Section (w : World) (b began : Nat) :
    (a : Action) → Stage a.Result → Stage a.Result → World → Prop
  | delete (queue : String) : Section w b began (.delete queue) .start
    (.changed (w.hub.deleteQueue queue).1) { w with hub := (w.hub.deleteQueue queue).2 }
  | close : Section w b began (.call .close) .start (.changed (.ok ())) (w.close b)
  | enter {c : Call} (atOnce : empty? c = none) (other : c ≠ .close) (isOpen : w.IsOpen b) :
    Section w b began (.call c) .start (.admitted w.notices) w
  | refuse {c : Call} (atOnce : empty? c = none) (other : c ≠ .close) (closed : ¬ w.IsOpen b) :
    Section w b began (.call c) .start (.returned (.error (.brokerClosed (w.handles b).name))) w
  | listen {c : Call} (waits : empty? c ≠ none) :
    Section w b began (.call c) .start (.listening w.notices) w
  | allow {c : Call} {e : Nat} (isOpen : w.IsOpen b) :
    Section w b began (.call c) (.listening e) (.admitted e) w
  | dismiss {c : Call} {e : Nat} (closed : ¬ w.IsOpen b) : Section w b began (.call c) (.listening e)
    (.returned (.error (.brokerClosed (w.handles b).name))) w
  | alter {c : Call} {e : Nat} {r : Except Error c.Value} {h : Hub}
    (found : w.hub.look w.now c = (some r, h)) (tells : wakes c = true) :
    Section w b began (.call c) (.admitted e) (.changed r) { w with hub := h }
  | find {c : Call} {e : Nat} {r : Except Error c.Value} {h : Hub}
    (found : w.hub.look w.now c = (some r, h)) (silent : wakes c = false) :
    Section w b began (.call c) (.admitted e) (.returned r) { w with hub := h }
  | miss {c : Call} {e : Nat} {h : Hub} (missed : w.hub.look w.now c = (none, h)) :
    Section w b began (.call c) (.admitted e) (.searched e) { w with hub := h }
  | giveUp {c : Call} {e : Nat} {v : c.Value} (empty : empty? c = some v) (due : w.Due began c) :
    Section w b began (.call c) (.searched e) (.returned (.ok v)) w
  | park {c : Call} {e : Nat} (early : ¬ w.Due began c) :
    Section w b began (.call c) (.searched e) (.parked e) w
  | wake {c : Call} {e : Nat} (up : e < w.notices ∨ w.Due began c) :
    Section w b began (.call c) (.parked e) .start w
  | notify {a : Action} {r : a.Result} :
    Section w b began a (.changed r) (.returned r) { w with notices := w.notices + 1 }

inductive Move (i : Nat) (w : World) : World → Prop
  | mk {b began : Nat} {a : Action} {s s' : Stage a.Result} {w' : World}
    (there : w.tasks i = some ⟨b, a, began, s⟩) (moved : Section w b began a s s' w') :
    Move i w (w'.put i (some ⟨b, a, began, s'⟩))

inductive Step (w : World) : World → Prop
  | pass (now : Moment) (forward : w.now.clock ≤ now.clock) : Step w { w with now := now }
  | begin (i b : Nat) (a : Action) (free : w.tasks i = none) :
    Step w (w.put i (some ⟨b, a, w.now.clock, .start⟩))
  | move {i : Nat} {w' : World} (moved : Move i w w') : Step w w'
  | abandon {i b began e : Nat} {c : Call}
    (there : w.tasks i = some ⟨b, .call c, began, .parked e⟩) : Step w (w.put i none)

inductive Reachable : World → Prop
  | new (now : Moment) (hub : Hub) (handles : Nat → Handle) : Reachable (.new now hub handles)
  | step {w w' : World} (earlier : Reachable w) (next : Step w w') : Reachable w'

/-- A look found nothing, and nothing has come since unless a notice was given or is to come. -/
structure Missed (w : World) (b : Nat) (c : Call) (e : Nat) : Prop where
  waits : empty? c ≠ none
  le : e ≤ w.notices
  vain : e = w.notices → w.Settled → w.IsOpen b ∧ w.hub.Lacks w.now c

def Fits (w : World) (b began : Nat) : (a : Action) → Stage a.Result → Prop
  | .call _, .listening e => e ≤ w.notices
  | .call _, .admitted e => e ≤ w.notices ∧ (e = w.notices → w.Settled → w.IsOpen b)
  | .call c, .searched e | .call c, .parked e => Missed w b c e
  | .call c, .changed _ => empty? c = none
  | .call c, .returned r => ∀ v, empty? c = some v → r = .ok v → w.Due began c
  | .call _, .start | .delete _, .start | .delete _, .changed _ | .delete _, .returned _ => True
  | .delete _, _ => False

structure Drift (w w' : World) : Prop where
  notices : w.notices ≤ w'.notices
  clock : w.now.clock ≤ w'.now.clock
  quiet : w'.notices = w.notices → w'.Settled → w.Settled ∧
    (∀ b, w.IsOpen b → w'.IsOpen b) ∧ ∀ c, w.hub.Lacks w.now c → w'.hub.Lacks w'.now c

variable {w w' : World} {i b began : Nat} {a : Action} {s s' : Stage a.Result}

theorem Missed.drift {c : Call} {e : Nat} (missed : Missed w b c e) (d : Drift w w') :
    Missed w' b c e := by
  have hle := missed.le
  have hnotices := d.notices
  refine ⟨missed.waits, by omega, fun he settled => ?_⟩
  obtain ⟨settled, isOpen, lacks⟩ := d.quiet (by omega) settled
  obtain ⟨hopen, hlacks⟩ := missed.vain (by omega) settled
  exact ⟨isOpen b hopen, lacks c hlacks⟩

theorem Fits.drift (fits : Fits w b began a s) (d : Drift w w') : Fits w' b began a s := by
  cases a with
  | delete queue => cases s <;> exact fits
  | call c =>
    cases s with
    | start => trivial
    | listening e => exact Nat.le_trans fits d.notices
    | admitted e =>
      have hle : e ≤ w.notices := fits.1
      have hnotices := d.notices
      refine ⟨Nat.le_trans hle hnotices, fun he settled => ?_⟩
      obtain ⟨settled, isOpen, -⟩ := d.quiet (by omega) settled
      exact isOpen b (fits.2 (by omega) settled)
    | searched e => exact Missed.drift fits d
    | parked e => exact Missed.drift fits d
    | changed r => exact fits
    | returned r => exact fun v hv hr => Nat.le_trans (fits v hv hr) d.clock

theorem put_tasks (w : World) (i : Nat) (t : Option Task) (j : Nat) :
    (w.put i t).tasks j = if j = i then t else w.tasks j := rfl

theorem settled_of_put {t : Option Task} (settled : (w'.put i t).Settled)
    (same : w'.tasks = w.tasks)
    (unchanged : ∀ b a began r, w.tasks i ≠ some ⟨b, a, began, .changed r⟩) : w.Settled := by
  intro j b a began r htask
  by_cases hj : j = i
  · subst hj
    exact unchanged b a began r htask
  · refine settled j b a began r ?_
    rw [put_tasks, if_neg hj, same]
    exact htask

theorem settled_before {t : Option Task} (settled : (w'.put i t).Settled) (same : w'.tasks = w.tasks)
    (there : w.tasks i = some ⟨b, a, began, s⟩) (unchanged : ∀ r, s ≠ .changed r) : w.Settled := by
  refine settled_of_put settled same fun b₁ a₁ began₁ r₁ htask => ?_
  rw [there] at htask
  cases htask
  exact unchanged r₁ rfl

theorem not_settled_put {r : a.Result} :
    ¬ (w.put i (some ⟨b, a, began, .changed r⟩)).Settled := by
  intro settled
  refine settled i b a began r ?_
  rw [put_tasks, if_pos rfl]

theorem Section.tasks (moved : Section w b began a s s' w') : w'.tasks = w.tasks := by
  cases moved <;> rfl

theorem Section.drift (moved : Section w b began a s s' w')
    (there : w.tasks i = some ⟨b, a, began, s⟩) :
    Drift w (w'.put i (some ⟨b, a, began, s'⟩)) := by
  have quietly (hs : ∀ r, s ≠ .changed r) (hnow : w'.now = w.now) (hhandles : w'.handles = w.handles)
      (hnotices : w'.notices = w.notices) (hcalm : Calm w.hub w'.hub) :
      Drift w (w'.put i (some ⟨b, a, began, s'⟩)) := by
    refine ⟨Nat.le_of_eq hnotices.symm, Nat.le_of_eq (congrArg Moment.clock hnow.symm),
      fun _ settled => ⟨settled_before settled moved.tasks there hs, ?_, ?_⟩⟩
    · intro b₁ isOpen
      show (w'.handles b₁).closed = false
      rw [hhandles]
      exact isOpen
    · intro c lacks
      show w'.hub.Lacks w'.now c
      rw [hnow]
      exact hcalm.lacks lacks
  cases moved with
  | delete queue =>
    exact ⟨Nat.le_refl _, Nat.le_refl _, fun _ settled => absurd settled not_settled_put⟩
  | close =>
    exact ⟨Nat.le_refl _, Nat.le_refl _, fun _ settled => absurd settled not_settled_put⟩
  | alter found tells =>
    exact ⟨Nat.le_refl _, Nat.le_refl _, fun _ settled => absurd settled not_settled_put⟩
  | notify =>
    refine ⟨Nat.le_succ _, Nat.le_refl _, fun heq => ?_⟩
    exact absurd heq (Nat.succ_ne_self _)
  | find found silent => exact quietly nofun rfl rfl rfl (Hub.calm_of_look found silent)
  | miss missed => exact quietly nofun rfl rfl rfl <|
    Hub.calm_of_look missed (Hub.wakes_of_waits (Hub.waits_of_look missed))
  | _ => exact quietly nofun rfl rfl rfl (.refl _)

theorem Section.fits (moved : Section w b began a s s' w')
    (there : w.tasks i = some ⟨b, a, began, s⟩) (fits : Fits w b began a s) :
    Fits (w'.put i (some ⟨b, a, began, s'⟩)) b began a s' := by
  have before (hs : ∀ r, s ≠ .changed r) (settled : (w'.put i (some ⟨b, a, began, s'⟩)).Settled) :
      w.Settled := settled_before settled moved.tasks there hs
  cases moved with
  | delete queue => trivial
  | close => rfl
  | enter atOnce other isOpen => exact ⟨Nat.le_refl _, fun _ _ => isOpen⟩
  | refuse => exact nofun
  | listen => exact Nat.le_refl _
  | allow isOpen => exact ⟨fits, fun _ _ => isOpen⟩
  | dismiss => exact nofun
  | @alter c e r h found tells =>
    refine Classical.byContradiction fun waits => ?_
    rw [Hub.wakes_of_waits waits] at tells
    cases tells
  | find found silent => exact fun v hv hr => absurd hr (Hub.look_ne_empty found hv)
  | miss missed =>
    have waits := Hub.waits_of_look missed
    have calm := Hub.calm_of_look missed (Hub.wakes_of_waits waits)
    refine ⟨waits, fits.1, fun he settled => ⟨fits.2 he (before nofun settled), ?_⟩⟩
    exact calm.lacks (Hub.lacks_of_look missed)
  | giveUp empty due => exact fun _ _ _ => due
  | park early =>
    exact ⟨fits.waits, fits.le, fun he settled => fits.vain he (before nofun settled)⟩
  | wake up => trivial
  | @notify a r =>
    cases a with
    | delete queue => trivial
    | call c =>
      intro v hv
      have none : empty? c = none := fits
      rw [none] at hv
      cases hv

theorem Step.drift (next : Step w w') : Drift w w' := by
  cases next with
  | pass now forward =>
    exact ⟨Nat.le_refl _, forward, fun _ settled => ⟨settled, fun _ => id,
      fun c lacks => Hub.Lacks.later lacks forward⟩⟩
  | begin i b a free =>
    refine ⟨Nat.le_refl _, Nat.le_refl _, fun _ settled => ⟨?_, fun _ => id, fun _ => id⟩⟩
    refine settled_of_put settled rfl fun _ _ _ _ htask => ?_
    rw [free] at htask
    cases htask
  | move moved =>
    cases moved with
    | mk there moved => exact moved.drift there
  | abandon there =>
    exact ⟨Nat.le_refl _, Nat.le_refl _,
      fun _ settled => ⟨settled_before settled rfl there nofun, fun _ => id, fun _ => id⟩⟩

theorem Move.task_cases {j : Nat} (moved : Move j w w')
    (there : w'.tasks i = some ⟨b, a, began, s'⟩) :
    i ≠ j ∧ w.tasks i = some ⟨b, a, began, s'⟩ ∨ i = j ∧ ∃ s w₁, w.tasks i = some ⟨b, a, began, s⟩ ∧
      Section w b began a s s' w₁ ∧ w' = w₁.put i (some ⟨b, a, began, s'⟩) := by
  cases moved with
  | @mk b₁ began₁ a₁ s₁ s₁' w₁ before moved =>
    rw [put_tasks] at there
    split at there
    · next heq =>
      subst heq
      cases there
      exact .inr ⟨rfl, s₁, w₁, before, moved, rfl⟩
    · next hi =>
      rw [moved.tasks] at there
      exact .inl ⟨hi, there⟩

theorem Step.task_cases (next : Step w w') (there : w'.tasks i = some ⟨b, a, began, s'⟩) :
    w.tasks i = some ⟨b, a, began, s'⟩ ∨ s' = .start ∨ ∃ s w₁, w.tasks i = some ⟨b, a, began, s⟩ ∧
      Section w b began a s s' w₁ ∧ w' = w₁.put i (some ⟨b, a, began, s'⟩) := by
  cases next with
  | pass now forward => exact .inl there
  | begin j b₁ a₁ free =>
    rw [put_tasks] at there
    split at there
    · cases there
      exact .inr (.inl rfl)
    · exact .inl there
  | move moved =>
    rcases moved.task_cases there with ⟨-, same⟩ | ⟨-, own⟩
    · exact .inl same
    · exact .inr (.inr own)
  | abandon before =>
    rw [put_tasks] at there
    split at there
    · cases there
    · exact .inl there

theorem Step.fits (next : Step w w')
    (earlier : ∀ i b a began s, w.tasks i = some ⟨b, a, began, s⟩ → Fits w b began a s) :
    ∀ i b a began s, w'.tasks i = some ⟨b, a, began, s⟩ → Fits w' b began a s := by
  intro i b a began s htask
  rcases next.task_cases htask with same | rfl | ⟨s₁, w₁, there, moved, rfl⟩
  · exact (earlier i b a began s same).drift next.drift
  · cases a <;> trivial
  · exact moved.fits there (earlier i b a began s₁ there)

theorem Reachable.fits (reachable : Reachable w) :
    ∀ i b a began s, w.tasks i = some ⟨b, a, began, s⟩ → Fits w b began a s := by
  induction reachable with
  | new now hub handles =>
    intro i b a began s there
    cases there
  | step earlier next ih => exact next.fits ih

/-- A run in which nobody but one task moves, and no time passes. -/
inductive Alone (i : Nat) : World → World → Prop
  | refl (w : World) : Alone i w w
  | move {w w₁ w' : World} (moved : Move i w w₁) (rest : Alone i w₁ w') : Alone i w w'

theorem Alone.trans {w₁ : World} (first : Alone i w w₁) (rest : Alone i w₁ w') : Alone i w w' := by
  induction first with
  | refl => exact rest
  | move moved _ ih => exact .move moved (ih rest)

theorem Alone.single (moved : Move i w w') : Alone i w w' := .move moved (.refl w')

theorem Section.alone {w₁ : World} (moved : Section w b began a s s' w₁)
    (there : w.tasks i = some ⟨b, a, began, s⟩) :
    Alone i w (w₁.put i (some ⟨b, a, began, s'⟩)) := .single (.mk there moved)

theorem put_self (w : World) (i : Nat) (t : Option Task) : (w.put i t).tasks i = t := if_pos rfl

theorem alone_admitted {c : Call} (there : w.tasks i = some ⟨b, .call c, began, .start⟩)
    (other : c ≠ .close) (isOpen : w.IsOpen b) :
    ∃ w₁, Alone i w w₁ ∧ w₁.tasks i = some ⟨b, .call c, began, .admitted w.notices⟩ ∧
      w₁.hub = w.hub ∧ w₁.now = w.now ∧ w₁.handles = w.handles := by
  by_cases waits : empty? c = none
  · have entered : Section w b began (.call c) .start _ w := .enter waits other isOpen
    exact ⟨_, entered.alone there, put_self .., rfl, rfl, rfl⟩
  · have listened : Section w b began (.call c) .start _ w := .listen waits
    have allowed : Section (w.put i (some ⟨b, .call c, began, .listening w.notices⟩)) b began
        (.call c) (.listening w.notices) _ _ := .allow isOpen
    exact ⟨_, (listened.alone there).trans (allowed.alone (put_self ..)), put_self .., rfl, rfl, rfl⟩

theorem serve_of_other {handle : Handle} {h : Hub} {now : Moment} {deadline : Nat} {c : Call}
    (other : c ≠ .close) : handle.serve h now deadline c =
      if handle.closed then some (.error (.brokerClosed handle.name), handle, h)
      else (h.serve now deadline c).map fun (result, h) => (result, handle, h) := by
  cases c with
  | close => exact absurd rfl other
  | _ => rfl

theorem alone_returned {c : Call} {e : Nat} {r : Except Error c.Value} {h : Hub}
    (there : w.tasks i = some ⟨b, .call c, began, .admitted e⟩)
    (served : w.hub.serve w.now (began + c.patience.nanos) c = some (r, h)) :
    ∃ w', Alone i w w' ∧ w'.tasks i = some ⟨b, .call c, began, .returned r⟩ ∧ w'.hub = h ∧
      w'.handles = w.handles := by
  rw [Hub.serve_eq_look] at served
  cases hlook : w.hub.look w.now c with
  | mk found h₁ =>
    rw [hlook] at served
    cases found with
    | some r₁ =>
      obtain ⟨rfl, rfl⟩ := Prod.mk.inj (Option.some.inj served)
      cases tells : wakes c with
      | false =>
        have found : Section w b began (.call c) (.admitted e) _ _ := .find hlook tells
        exact ⟨_, found.alone there, put_self .., rfl, rfl⟩
      | true =>
        have altered : Section w b began (.call c) (.admitted e) _ _ := .alter hlook tells
        have told : Section (World.put { w with hub := h₁ } i
            (some ⟨b, .call c, began, .changed r₁⟩)) b began (.call c) (.changed r₁) _ _ := .notify
        exact ⟨_, (altered.alone there).trans (told.alone (put_self ..)), put_self .., rfl, rfl⟩
    | none =>
      dsimp only at served
      split at served
      · next due =>
        obtain ⟨v, empty, heq⟩ := Option.map_eq_some_iff.mp served
        obtain ⟨rfl, rfl⟩ := Prod.mk.inj heq
        have missed : Section w b began (.call c) (.admitted e) _ _ := .miss hlook
        have gaveUp : Section (World.put { w with hub := h₁ } i
            (some ⟨b, .call c, began, .searched e⟩)) b began (.call c) (.searched e) _ _ :=
          .giveUp empty due
        exact ⟨_, (missed.alone there).trans (gaveUp.alone (put_self ..)), put_self .., rfl, rfl⟩
      · cases served

theorem alone_serve {c : Call} {r : Except Error c.Value} {handle : Handle} {h : Hub}
    (there : w.tasks i = some ⟨b, .call c, began, .start⟩)
    (served : (w.handles b).serve w.hub w.now (began + c.patience.nanos) c = some (r, handle, h)) :
    ∃ w', Alone i w w' ∧ w'.tasks i = some ⟨b, .call c, began, .returned r⟩ ∧ w'.hub = h ∧
      w'.handles b = handle := by
  by_cases other : c = .close
  · subst other
    obtain ⟨rfl, rfl, rfl⟩ : .ok () = r ∧ { w.handles b with closed := true } = handle ∧ w.hub = h := by
      simpa [Handle.serve] using served
    have closed : Section w b began (.call .close) .start _ (w.close b) := .close
    have told : Section ((w.close b).put i (some ⟨b, .call .close, began, .changed (.ok ())⟩)) b began
        (.call .close) (.changed (.ok ())) _ _ := .notify
    exact ⟨_, (closed.alone there).trans (told.alone (put_self ..)), put_self .., rfl, if_pos rfl⟩
  rw [serve_of_other other] at served
  split at served
  · next hclosed =>
    obtain ⟨rfl, rfl, rfl⟩ : _ = r ∧ w.handles b = handle ∧ w.hub = h := by simpa using served
    have closed : ¬ w.IsOpen b := by simp [World.IsOpen, hclosed]
    by_cases waits : empty? c = none
    · have refused : Section w b began (.call c) .start _ w := .refuse waits other closed
      exact ⟨_, refused.alone there, put_self .., rfl, rfl⟩
    · have listened : Section w b began (.call c) .start _ w := .listen waits
      have dismissed : Section (w.put i (some ⟨b, .call c, began, .listening w.notices⟩)) b began
          (.call c) (.listening w.notices) _ _ := .dismiss closed
      exact ⟨_, (listened.alone there).trans (dismissed.alone (put_self ..)), put_self .., rfl, rfl⟩
  · next hopen =>
    obtain ⟨⟨r₁, h₁⟩, hserve, heq⟩ := Option.map_eq_some_iff.mp served
    obtain ⟨rfl, rfl, rfl⟩ : r₁ = r ∧ w.handles b = handle ∧ h₁ = h := by simpa using heq
    have isOpen : w.IsOpen b := Bool.eq_false_iff.mpr hopen
    obtain ⟨w₁, first, there₁, hhub, hnow, hhandles⟩ := alone_admitted there other isOpen
    rw [← hhub, ← hnow] at hserve
    obtain ⟨w', rest, there', hhub', hhandles'⟩ := alone_returned there₁ hserve
    exact ⟨w', first.trans rest, there', hhub', by rw [hhandles', hhandles]⟩

/-- Nothing is left for the task to do, or nothing that it could do by now. -/
def Task.Rests (w : World) : Task → Prop
  | ⟨_, _, _, .returned _⟩ => True
  | ⟨_, .call c, began, .parked e⟩ => e = w.notices ∧ ¬ w.Due began c
  | _ => False

theorem Fits.moves (fits : Fits w b began a s) (there : w.tasks i = some ⟨b, a, began, s⟩) :
    Task.Rests w ⟨b, a, began, s⟩ ∨ ∃ w', Move i w w' := by
  have move {s' : Stage a.Result} {w₁ : World} (moved : Section w b began a s s' w₁) :
      Task.Rests w ⟨b, a, began, s⟩ ∨ ∃ w', Move i w w' := .inr ⟨_, .mk there moved⟩
  cases a with
  | delete queue =>
    cases s with
    | start => exact move (.delete queue)
    | changed r => exact move .notify
    | returned r => exact .inl trivial
    | _ => exact fits.elim
  | call c =>
    cases s with
    | start =>
      by_cases other : c = .close
      · subst other
        exact move .close
      · by_cases waits : empty? c = none
        · by_cases isOpen : w.IsOpen b
          · exact move (.enter waits other isOpen)
          · exact move (.refuse waits other isOpen)
        · exact move (.listen waits)
    | listening e =>
      by_cases isOpen : w.IsOpen b
      · exact move (.allow isOpen)
      · exact move (.dismiss isOpen)
    | admitted e =>
      cases hlook : w.hub.look w.now c with
      | mk found h =>
        cases found with
        | none => exact move (.miss hlook)
        | some r =>
          cases tells : wakes c with
          | true => exact move (.alter hlook tells)
          | false => exact move (.find hlook tells)
    | searched e =>
      by_cases due : w.Due began c
      · obtain ⟨v, empty⟩ := Option.ne_none_iff_exists'.mp fits.waits
        exact move (.giveUp empty due)
      · exact move (.park due)
    | parked e =>
      by_cases up : e < w.notices ∨ w.Due began c
      · exact move (.wake up)
      · have hle : e ≤ w.notices := fits.le
        exact .inl ⟨by omega, fun due => up (.inr due)⟩
    | changed r => exact move .notify
    | returned r => exact .inl trivial

theorem exists_served {c : Call} (deadline : Nat) (waits : empty? c ≠ none)
    (ends : ¬ w.IsOpen b ∨ ¬ w.hub.Lacks w.now c ∨ deadline ≤ w.now.clock) :
    ∃ r handle h, (w.handles b).serve w.hub w.now deadline c = some (r, handle, h) := by
  have other : c ≠ .close := fun heq => waits (heq ▸ rfl)
  rw [serve_of_other other]
  split
  · exact ⟨_, _, _, rfl⟩
  · next hopen =>
    have isOpen : w.IsOpen b := Bool.eq_false_iff.mpr hopen
    rw [Hub.serve_eq_look]
    cases hlook : w.hub.look w.now c with
    | mk found h =>
      cases found with
      | some r => exact ⟨_, _, _, rfl⟩
      | none =>
        obtain ⟨v, empty⟩ := Option.ne_none_iff_exists'.mp waits
        have due : deadline ≤ w.now.clock := by
          rcases ends with shut | found | due
          · exact absurd isOpen shut
          · exact absurd (Hub.lacks_of_look hlook) found
          · exact due
        simp only [due, if_true, empty]
        exact ⟨_, _, _, rfl⟩

structure Awake (w : World) : Prop where
  /-- Whoever is parked unwoken, while no change is still to be told, has nothing to wake up for. -/
  vain : w.Settled → ∀ i b c began, w.tasks i = some ⟨b, .call c, began, .parked w.notices⟩ →
    w.IsOpen b ∧ w.hub.Lacks w.now c
  moves : ∀ i t, w.tasks i = some t → t.Rests w ∨ ∃ w', Move i w w'
  answered : ∀ i b c began e, w.tasks i = some ⟨b, .call c, began, .parked e⟩ →
    e < w.notices ∨ w.Due began c → ¬ w.IsOpen b ∨ ¬ w.hub.Lacks w.now c ∨ w.Due began c →
      ∃ w' r, Alone i w w' ∧ w'.tasks i = some ⟨b, .call c, began, .returned r⟩
  patient : ∀ i b c began v, w.tasks i = some ⟨b, .call c, began, .returned (.ok v)⟩ →
    empty? c = some v → w.Due began c

theorem Reachable.awake (reachable : Reachable w) : Awake w where
  vain settled i b c began there := by
    have missed : Missed w b c w.notices := reachable.fits i b _ began _ there
    exact missed.vain rfl settled
  moves i t there := (reachable.fits i t.broker t.action t.began t.stage there).moves there
  answered i b c began e there up ends := by
    have missed : Missed w b c e := reachable.fits i b _ began _ there
    have woken : Section w b began (.call c) (.parked e) .start w := .wake up
    obtain ⟨r, handle, h, served⟩ := exists_served (w := w.put i (some ⟨b, .call c, began, .start⟩))
      (began + c.patience.nanos) missed.waits ends
    obtain ⟨w', rest, there', -, -⟩ := alone_serve (put_self ..) served
    exact ⟨w', r, (woken.alone there).trans rest, there'⟩
  patient i b c began v there empty := reachable.fits i b _ began _ there v empty rfl

theorem Reachable.alone (reachable : Reachable w) (alone : Alone i w w') : Reachable w' := by
  induction alone with
  | refl => exact reachable
  | move moved _ ih => exact ih (reachable.step (.move moved))

theorem put_put (w : World) (i : Nat) (t t' : Option Task) : (w.put i t).put i t' = w.put i t' := by
  unfold World.put
  congr 1
  funext j
  by_cases hj : j = i <;> simp [hj]

theorem alone_parked {c : Call} (waits : empty? c ≠ none) (isOpen : w.IsOpen b)
    (missed : w.hub.look w.now c = (none, w.hub)) (early : ¬ w.Due began c) :
    Alone i (w.put i (some ⟨b, .call c, began, .start⟩))
      (w.put i (some ⟨b, .call c, began, .parked w.notices⟩)) := by
  have step {s s' : Stage (Action.call c).Result}
      (moved : Section (w.put i (some ⟨b, .call c, began, s⟩)) b began (.call c) s s'
        (w.put i (some ⟨b, .call c, began, s⟩))) :
      Alone i (w.put i (some ⟨b, .call c, began, s⟩)) (w.put i (some ⟨b, .call c, began, s'⟩)) := by
    have alone := moved.alone (put_self w i _)
    rwa [put_put] at alone
  have listened := step (.listen waits)
  have allowed := step (.allow (e := w.notices) isOpen)
  have looked := step (.miss (e := w.notices) missed)
  have parked := step (.park (e := w.notices) early)
  exact listened.trans (allowed.trans (looked.trans parked))

namespace Parked

def now : Moment := ⟨⟨0⟩, 0⟩

def reader : Call := .readGroup "g" "c" ["q"] 1 ⟨10⟩

def stocked : Hub := (Hub.enact .empty [(now, .call (.createGroup "q" "g")),
  (now, .call (.appendPlaceholder "q"))]).2

def before : World := .new now stocked fun _ => .new "b"

def world : World := before.put 0 (some ⟨0, .call reader, 0, .parked 0⟩)

theorem missed : stocked.look now reader = (none, stocked) := rfl

theorem reachable : Reachable world := by
  have begun : Reachable (before.put 0 (some ⟨0, .call reader, 0, .start⟩)) :=
    (Reachable.new now stocked _).step (.begin 0 0 (.call reader) rfl)
  exact begun.alone (alone_parked (w := before) nofun rfl missed (by decide))

theorem settled : world.Settled := by
  intro i b a began r there
  unfold world at there
  rw [put_tasks] at there
  split at there <;> cases there

end Parked

theorem awake_parked :
    Parked.world.Settled ∧
      Parked.world.tasks 0 = some ⟨0, .call Parked.reader, 0, .parked Parked.world.notices⟩ ∧
      Awake Parked.world :=
  ⟨Parked.settled, rfl, Parked.reachable.awake⟩

end BrokeredCalls.Waking
