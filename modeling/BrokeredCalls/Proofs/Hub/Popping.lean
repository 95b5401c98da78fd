import BrokeredCalls.Proofs.Hub.Dealing
import BrokeredCalls.Proofs.Hub.Waking

/-!
Reply lists under tasks whose sections interleave. A task that was admitted to the store looks once, and
again if it was woken; the looks of a run, in their order, tell what each pop returns.
-/

namespace BrokeredCalls.Slots

open Broker (Call)
open Hub (Action Handle empty?)
open Waking (Reachable Section Stage Step Task World put_put put_self put_tasks)

def Unvisited (w w' : World) : Prop := ∀ i b began c e,
  w.tasks i = some ⟨b, .call c, began, .admitted e⟩ → w'.tasks i = w.tasks i

/-- A run from an empty store and the looks taken in it, the newest first. -/
inductive Course : List Visit → World → Prop
  | new (now : Moment) (handles : Nat → Handle) : Course [] (.new now .empty handles)
  | visit {vs : List Visit} {w w' : World} {i b began e : Nat} {c : Call}
    {s' : Stage (Action.call c).Result} (earlier : Course vs w)
    (there : w.tasks i = some ⟨b, .call c, began, .admitted e⟩)
    (moved : Section w b began (.call c) (.admitted e) s' w') :
    Course (⟨i, w.now, c, (w.hub.look w.now c).1⟩ :: vs) (w'.put i (some ⟨b, .call c, began, s'⟩))
  | other {vs : List Visit} {w w' : World} (earlier : Course vs w) (next : Step w w')
    (unvisited : Unvisited w w') : Course vs w'

variable {vs : List Visit} {w w' : World} {i b began e : Nat} {a : Action} {c : Call}

section Courses

variable {s s' : Stage a.Result}

theorem looked_of_section {s' : Stage (Action.call c).Result}
    (moved : Section w b began (.call c) (.admitted e) s' w') :
    w'.hub = (w.hub.look w.now c).2 ∧ w'.now = w.now := by
  cases moved with
  | alter found => exact ⟨(congrArg Prod.snd found).symm, rfl⟩
  | find found => exact ⟨(congrArg Prod.snd found).symm, rfl⟩
  | miss missed => exact ⟨(congrArg Prod.snd missed).symm, rfl⟩

theorem lists_of_section (moved : Section w b began a s s' w') (idle : ∀ e, s ≠ .admitted e) :
    w'.hub.lists = w.hub.lists := by
  cases moved with
  | alter | find | miss => exact absurd rfl (idle _)
  | _ => rfl

theorem unvisited_put {t : Option Task} (same : w'.tasks = w.tasks)
    (idle : ∀ b began c e, w.tasks i ≠ some ⟨b, .call c, began, .admitted e⟩) :
    Unvisited w (w'.put i t) := by
  intro j b began c e there
  rw [put_tasks, same]
  split
  · next heq => exact absurd (heq ▸ there) (idle b began c e)
  · rfl

theorem Course.idle (course : Course vs w) (there : w.tasks i = some ⟨b, a, began, s⟩)
    (moved : Section w b began a s s' w') (idle : ∀ e, s ≠ .admitted e) :
    Course vs (w'.put i (some ⟨b, a, began, s'⟩)) := by
  refine .other course (.move (.mk there moved)) (unvisited_put moved.tasks ?_)
  intro b₁ began₁ c₁ e₁ there₁
  rw [there] at there₁
  cases there₁
  exact idle e₁ rfl

theorem Course.begin (course : Course vs w) (free : w.tasks i = none) (b : Nat) (a : Action) :
    Course vs (w.put i (some ⟨b, a, w.now.clock, .start⟩)) := by
  refine .other course (.begin i b a free) (unvisited_put rfl ?_)
  rw [free]
  exact nofun

theorem Course.goesOn (course : Course vs w) (next : Step w w') :
    ∃ vs', vs <:+ vs' ∧ Course vs' w' := by
  cases next with
  | pass now forward =>
    exact ⟨vs, List.suffix_rfl, .other course (.pass now forward) fun _ _ _ _ _ _ => rfl⟩
  | begin i b a free => exact ⟨vs, List.suffix_rfl, course.begin free b a⟩
  | move moved =>
    cases moved with
    | mk there moved =>
      have idly := course.idle there moved
      cases moved with
      | alter found tells =>
        exact ⟨_, List.suffix_cons _ _, .visit course there (.alter found tells)⟩
      | find found silent =>
        exact ⟨_, List.suffix_cons _ _, .visit course there (.find found silent)⟩
      | miss missed => exact ⟨_, List.suffix_cons _ _, .visit course there (.miss missed)⟩
      | _ => exact ⟨vs, List.suffix_rfl, idly nofun⟩
  | abandon there =>
    refine ⟨vs, List.suffix_rfl, .other course (.abandon there) (unvisited_put rfl ?_)⟩
    rw [there]
    exact nofun

theorem Course.reachable (course : Course vs w) : Reachable w := by
  induction course with
  | new now handles => exact .new now .empty handles
  | visit _ there moved ih => exact ih.step (.move (.mk there moved))
  | other _ next _ ih => exact ih.step next

theorem idle_of_unvisited (there : w.tasks i = some ⟨b, a, began, s⟩)
    (moved : Section w b began a s s' w')
    (unvisited : Unvisited w (w'.put i (some ⟨b, a, began, s'⟩))) : ∀ e, s ≠ .admitted e := by
  rintro e rfl
  cases a with
  | delete queue => cases moved
  | call c =>
    have same := unvisited i _ _ _ _ there
    rw [put_tasks, if_pos rfl, there] at same
    cases moved <;> cases same

theorem lists_of_unvisited (next : Step w w') (unvisited : Unvisited w w') :
    w'.hub.lists = w.hub.lists := by
  cases next with
  | move moved =>
    cases moved with
    | mk there moved =>
      have same := lists_of_section moved (idle_of_unvisited there moved unvisited)
      exact same
  | _ => rfl

theorem Course.held (course : Course vs w) (key : String) :
    Held w.hub w.now.clock key (deals key vs) := by
  induction course generalizing key with
  | new now handles => exact fun _ _ => rfl
  | @visit vs w w' i b began e c s' _ there moved ih =>
    obtain ⟨hub, now⟩ := looked_of_section moved
    show Held w'.hub w'.now.clock key _
    rw [hub, now]
    exact (visit_looked i ih rfl).2 key
  | other _ next unvisited ih =>
    have same := congrArg (Table.find? · key) (lists_of_unvisited next unvisited)
    exact fun now le => (ih key).of_lists same now (Nat.le_trans next.drift.clock le)

theorem Course.fair (course : Course vs w) {v : Visit} {earlier : List Visit}
    (suffix : v :: earlier <:+ vs) : v.Fair earlier := by
  induction course with
  | new => cases List.suffix_nil.mp suffix
  | visit earlier there moved ih =>
    rcases List.suffix_cons_iff.mp suffix with heq | within
    · cases heq
      exact (visit_looked _ earlier.held rfl).1
    · exact ih within
  | other _ _ _ ih => exact ih suffix

end Courses

section Records

/-- What the looks of a task tell of where it stands. -/
def Told (vs : List Visit) (i : Nat) : (a : Action) → Stage a.Result → Prop
  | .call c, .searched _ => ∃ now, ⟨i, now, c, none⟩ ∈ vs
  | .call c, .changed r => c = .close ∨ ∃ now, ⟨i, now, c, some r⟩ ∈ vs
  | .call c, .returned (.ok v) => c = .close ∨ (∃ now, ⟨i, now, c, some (.ok v)⟩ ∈ vs) ∨
    empty? c = some v ∧ ∃ now, ⟨i, now, c, none⟩ ∈ vs
  | _, _ => True

theorem Told.mono {s : Stage a.Result} {vs' : List Visit} (told : Told vs i a s)
    (sub : vs ⊆ vs') : Told vs' i a s := by
  cases a with
  | delete queue => cases s <;> trivial
  | call c =>
    cases s with
    | searched e =>
      obtain ⟨now, there⟩ := told
      exact ⟨now, sub there⟩
    | changed r => exact told.imp_right fun ⟨now, there⟩ => ⟨now, sub there⟩
    | returned r =>
      cases r with
      | error e => trivial
      | ok v =>
        exact told.imp_right (Or.imp (fun ⟨now, there⟩ => ⟨now, sub there⟩)
          (And.imp_right fun ⟨now, there⟩ => ⟨now, sub there⟩))
    | _ => trivial

theorem told_of_section {s s' : Stage a.Result} (moved : Section w b began a s s' w')
    (idle : ∀ e, s ≠ .admitted e) (told : Told vs i a s) : Told vs i a s' := by
  cases moved with
  | alter | find | miss => exact absurd rfl (idle _)
  | close => exact .inl rfl
  | giveUp empty due => exact .inr (.inr ⟨empty, told⟩)
  | @notify a r =>
    cases a with
    | delete queue => trivial
    | call c =>
      cases r with
      | error e => trivial
      | ok v => exact Or.imp_right Or.inl told
  | _ => trivial

theorem told_of_visit {s' : Stage (Action.call c).Result}
    (moved : Section w b began (.call c) (.admitted e) s' w') :
    Told (⟨i, w.now, c, (w.hub.look w.now c).1⟩ :: vs) i (.call c) s' := by
  cases moved with
  | alter found =>
    rw [found]
    exact .inr ⟨_, List.mem_cons_self⟩
  | @find _ _ r _ found =>
    rw [found]
    cases r with
    | error e => trivial
    | ok v => exact .inr (.inl ⟨_, List.mem_cons_self⟩)
  | miss missed =>
    rw [missed]
    exact ⟨_, List.mem_cons_self⟩

theorem Course.told (course : Course vs w) : ∀ {i b a began s},
    w.tasks i = some ⟨b, a, began, s⟩ → Told vs i a s := by
  induction course with
  | new => exact nofun
  | visit _ there moved ih =>
    intro i b a began s htask
    rw [put_tasks] at htask
    split at htask
    · next heq =>
      cases htask
      rw [heq]
      exact told_of_visit moved
    · rw [moved.tasks] at htask
      exact (ih htask).mono (List.subset_cons_self _ _)
  | other _ next unvisited ih =>
    intro i b a began s htask
    rcases next.task_cases htask with same | rfl | ⟨s₁, w₁, there, moved, rfl⟩
    · exact ih same
    · cases a <;> trivial
    · exact told_of_section moved (idle_of_unvisited there moved unvisited) (ih there)

def Past (w : World) (i : Nat) (c : Call) (r : Except Error c.Value) : Prop := ∃ b began,
  w.tasks i = some ⟨b, .call c, began, .changed r⟩ ∨ w.tasks i = some ⟨b, .call c, began, .returned r⟩

theorem Past.step {r : Except Error c.Value} (past : Past w i c r) (next : Step w w') :
    Past w' i c r := by
  obtain ⟨b, began, past⟩ := past
  have keep {w₁ : World} (same : w₁.tasks i = w.tasks i) : Past w₁ i c r :=
    ⟨b, began, by rwa [same]⟩
  cases next with
  | pass => exact keep rfl
  | begin j b₁ a₁ free =>
    refine keep (if_neg fun heq => ?_)
    subst heq
    rw [free] at past
    rcases past with past | past <;> cases past
  | @move j _ moved =>
    cases moved with
    | @mk b₁ began₁ a₁ s₁ s' w₁ there moved =>
      by_cases heq : i = j
      · subst heq
        rw [there] at past
        rcases past with past | past
        · cases past
          cases moved with
          | notify => exact ⟨_, _, .inr (if_pos rfl)⟩
        · cases past
          cases moved
      · exact keep ((if_neg heq).trans (congrFun moved.tasks i))
  | abandon there =>
    refine keep (if_neg fun heq => ?_)
    subst heq
    rw [there] at past
    rcases past with past | past <;> cases past

theorem Course.past (course : Course vs w) {later earlier : List Visit} {i : Nat} {now : Moment}
    {c : Call} {r : Except Error c.Value} (split : vs = later ++ ⟨i, now, c, some r⟩ :: earlier) :
    Past w i c r ∧ ∀ v ∈ later, v.task ≠ i := by
  induction course generalizing later with
  | new => cases List.append_ne_nil_of_right_ne_nil later (List.cons_ne_nil _ _) split.symm
  | @visit vs w w' j b began e c₁ s' _ there moved ih =>
    cases later with
    | nil =>
      obtain ⟨heq, -⟩ := List.cons.inj split
      refine ⟨?_, List.forall_mem_nil _⟩
      cases moved with
      | alter found =>
        rw [found] at heq
        cases heq
        exact ⟨_, _, .inl (if_pos rfl)⟩
      | find found =>
        rw [found] at heq
        cases heq
        exact ⟨_, _, .inr (if_pos rfl)⟩
      | miss missed =>
        rw [missed] at heq
        cases heq
    | cons v later =>
      obtain ⟨rfl, rfl⟩ := List.cons.inj split
      obtain ⟨past, later⟩ := ih rfl
      have next : Step w _ := .move (.mk there moved)
      refine ⟨past.step next, List.forall_mem_cons.mpr ⟨?_, later⟩⟩
      rintro rfl
      obtain ⟨_, _, past | past⟩ := past
      · rw [there] at past
        cases past
      · rw [there] at past
        cases past
  | other _ next _ ih => exact ⟨(ih split).1.step next, (ih split).2⟩

end Records

/-- Reply lists as slots for one use: first in, first out, until their expiry. -/
structure SingleUse (vs : List Visit) (w : World) : Prop where
  onward : ∀ w', Step w w' → ∃ vs', vs <:+ vs' ∧ Course vs' w'
  held : ∀ key (now : Moment), w.now.clock ≤ now.clock →
    w.hub.liveList? now key = asList (waiting (deals key vs) now.clock) (expiry (deals key vs))
  left : ∀ key clock, (waiting (deals key vs) clock).Pairwise (fun f g => f.number < g.number) ∧
    ∀ f, f ∈ waiting (deals key vs) clock ↔ Waits (deals key vs) clock f
  fair : ∀ v earlier, v :: earlier <:+ vs → v.Fair earlier
  once : ∀ key, (taken (deals key vs)).Pairwise fun newer older => older.number < newer.number
  discarded : ∀ key clock value ttl earlier,
    ⟨clock, .push value ttl⟩ :: earlier <:+ deals key vs → expiry earlier ≤ clock →
      ∀ f ∈ pushes earlier, (∀ now, ¬ Waits (deals key vs) now f) ∧
        (f ∈ taken (deals key vs) → f ∈ taken earlier)
  apart : ∀ key vs' w', Course vs' w' → deals key vs' = deals key vs →
    ∀ now : Moment, w.now.clock ≤ now.clock → w'.now.clock ≤ now.clock →
      w'.hub.liveList? now key = w.hub.liveList? now key
  answered : ∀ i b began c v, w.tasks i = some ⟨b, .call c, began, .returned (.ok v)⟩ →
    c ≠ .close → (∃ now, ⟨i, now, c, some (.ok v)⟩ ∈ vs) ∨
      empty? c = some v ∧ w.Due began c ∧ ∃ now, ⟨i, now, c, none⟩ ∈ vs
  past : ∀ later i now c r earlier, vs = later ++ ⟨i, now, c, some r⟩ :: earlier →
    Past w i c r ∧ ∀ v ∈ later, v.task ≠ i

theorem replies_single_use (course : Course vs w) : SingleUse vs w where
  onward _ next := course.goesOn next
  held key := course.held key
  left key clock := ⟨waiting_ascending _ clock, fun _ => mem_waiting_iff⟩
  fair _ _ suffix := course.fair suffix
  once key := taken_descending (deals key vs)
  discarded _ _ _ _ _ suffix expired _ old := lost suffix expired old
  apart key vs' w' course' same now le le' := by
    rw [course.held key now le, course'.held key now le', same]
  answered i b began c v there other := by
    rcases course.told there with close | found | ⟨empty, vain⟩
    · exact absurd close other
    · exact .inl found
    · exact .inr ⟨empty, course.reachable.fits i b _ began _ there v empty rfl, vain⟩
  past _ _ _ _ _ _ split := course.past split

theorem Course.served {r : Except Error c.Value} {h : Hub} (course : Course vs w)
    (free : w.tasks i = none) (isOpen : w.IsOpen b) (other : c ≠ .close)
    (found : w.hub.look w.now c = (some r, h)) :
    Course (⟨i, w.now, c, some r⟩ :: vs) (World.put
      { w with hub := h, notices := if Hub.wakes c then w.notices + 1 else w.notices } i
      (some ⟨b, .call c, w.now.clock, .returned r⟩)) := by
  have begun := course.begin free b (.call c)
  have admitted : ∃ e, Course vs (w.put i (some ⟨b, .call c, w.now.clock, .admitted e⟩)) := by
    by_cases waits : empty? c = none
    · have entered := begun.idle (put_self ..) (.enter waits other isOpen) nofun
      rw [put_put] at entered
      exact ⟨_, entered⟩
    · have listened := begun.idle (put_self ..) (.listen waits) nofun
      rw [put_put] at listened
      have allowed := listened.idle (put_self ..) (.allow isOpen) nofun
      rw [put_put] at allowed
      exact ⟨_, allowed⟩
  obtain ⟨e, admitted⟩ := admitted
  have recorded : (w.hub.look w.now c).1 = some r := congrArg Prod.fst found
  cases tells : Hub.wakes c with
  | false =>
    have visited := admitted.visit (put_self ..) (.find found tells)
    change Course (⟨i, w.now, c, (w.hub.look w.now c).1⟩ :: vs)
      (World.put (World.put { w with hub := h } i _) i _) at visited
    rwa [recorded, put_put] at visited
  | true =>
    have visited := admitted.visit (put_self ..) (.alter found tells)
    change Course (⟨i, w.now, c, (w.hub.look w.now c).1⟩ :: vs)
      (World.put (World.put { w with hub := h } i _) i _) at visited
    rw [recorded, put_put] at visited
    have told := visited.idle (put_self ..) .notify nofun
    change Course _ (World.put (World.put { w with hub := h, notices := w.notices + 1 } i _) i _)
      at told
    rwa [put_put] at told

theorem Course.pass (course : Course vs w) (clock : Nat) (forward : w.now.clock ≤ clock) :
    Course vs { w with now := ⟨w.now.wall, clock⟩ } :=
  .other course (.pass ⟨w.now.wall, clock⟩ forward) fun _ _ _ _ _ _ => rfl

namespace Refreshed

def push (value : UInt8) : Call := .pushReply "k" [value] ⟨10⟩

def pop : Call := .popReply "k" ⟨0⟩

def pushed (w : World) (i : Nat) (value : UInt8) : World :=
  World.put { w with hub := w.hub.pushReply w.now "k" [value] ⟨10⟩, notices := w.notices + 1 } i
    (some ⟨0, .call (push value), w.now.clock, .returned (.ok ())⟩)

def atClock (w : World) (clock : Nat) : World := { w with now := ⟨w.now.wall, clock⟩ }

def before : World :=
  atClock (pushed (atClock (pushed (.new ⟨⟨0⟩, 0⟩ .empty fun _ => .new "b") 0 1) 5) 1 2) 12

def world : World := World.put { before with hub := (before.hub.popReply before.now "k").2 } 2
  (some ⟨0, .call pop, 12, .returned (.ok (some [1]))⟩)

def visits : List Visit := [⟨2, ⟨⟨0⟩, 12⟩, pop, some (.ok (some [1]))⟩,
  ⟨1, ⟨⟨0⟩, 5⟩, push 2, some (.ok ())⟩, ⟨0, ⟨⟨0⟩, 0⟩, push 1, some (.ok ())⟩]

theorem course : Course visits world := by
  have first := (Course.new ⟨⟨0⟩, 0⟩ fun _ => .new "b").served (i := 0) (b := 0) (c := push 1)
    rfl rfl nofun rfl
  have second := (first.pass 5 (by decide)).served (i := 1) (b := 0) (c := push 2) rfl rfl nofun rfl
  exact (second.pass 12 (by decide)).served (i := 2) (b := 0) (c := pop) rfl rfl nofun rfl

end Refreshed

/-- The first reply outlives its own push by the second. -/
theorem replies_single_use_refreshed :
    Course Refreshed.visits Refreshed.world ∧ SingleUse Refreshed.visits Refreshed.world :=
  ⟨Refreshed.course, replies_single_use Refreshed.course⟩

end BrokeredCalls.Slots
