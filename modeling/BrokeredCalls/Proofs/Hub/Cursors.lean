import BrokeredCalls.Proofs.Hub.Lives
import BrokeredCalls.Proofs.Hub.Looking

/-!
Where a group stands on a queue. A group comes to a queue by being created there, at the last id; it
stays until the queue is deleted, and only its own reads move it on.
-/

namespace BrokeredCalls.Hub

open Broker (Call)

def cursor? (h : Hub) (queue group : String) : Option EntryId :=
  (h.queues.find? queue).bind (·.groups.find? group)

theorem carries_eq (h : Hub) (queue group : String) :
    h.carries queue group = (h.cursor? queue group).isSome := by
  unfold carries cursor? Table.contains
  cases h.queues.find? queue <;> rfl

theorem cursor?_eq (h : Hub) (q g : String) : h.cursor? q g = (h.queueAt q).groups.find? g := by
  unfold cursor? queueAt
  cases h.queues.find? q <;> rfl

inductive Standing (q g : String) (before after : Hub) (a : Action) (r : a.Result) : Prop
  | same (kept : a ≠ .delete q) (eq : after.cursor? q g = before.cursor? q g)
  | read (reads : a.Reads g) (eq : (after.cursor? q g).isSome = (before.cursor? q g).isSome)
  | deleted (gone : a = .delete q) (eq : after.cursor? q g = none)
  | created (Q : Queue) (deed : (⟨a, r⟩ : Deed) = ⟨.call (.createGroup q g), .ok ()⟩)
    (there : before.queues.find? q = some Q)
    (eq : after.cursor? q g = some ((before.cursor? q g).getD Q.lastId))

theorem standing_of_does {h h' : Hub} {now : Moment} {a : Action} {r : a.Result}
    (hd : Does h now a r h') (q g : String) : Standing q g h h' a r := by
  have change := queueChange_of_does hd q
  generalize there : h.queues.find? q = Q at change
  generalize after : h'.queues.find? q = Q' at change
  have before : h.cursor? q g = Q.bind (·.groups.find? g) := by rw [cursor?, there]
  have since : h'.cursor? q g = Q'.bind (·.groups.find? g) := by rw [cursor?, after]
  cases change with
  | idle Q shows => exact .same shows.kept (by rw [before, since])
  | deleted Q gone => exact .deleted gone since
  | pushed Q e n bound _ shows =>
    refine .same shows.kept ?_
    rw [before, since]
    cases Q <;> rfl
  | created Q g' deed =>
    rw [Option.bind_some] at before since
    rw [Queue.find?_createGroup] at since
    by_cases hg : g = g'
    · subst hg
      exact .created Q deed there (by rw [since, if_pos rfl, before])
    · rw [if_neg hg] at since
      refine .same (fun gone => ?_) (by rw [before, since])
      subst gone
      cases deed
  | taken Q Q' g' es reads taken shows =>
    rw [Option.bind_some] at before since
    by_cases hg : g = g'
    · subst hg
      refine .read reads ?_
      rw [before, since]
      exact taken.reread.attached g
    · refine .same shows.kept ?_
      rw [before, since]
      exact taken.reread.others g hg

def Transition.Attaches (q g : String) (t : Transition) : Prop :=
  t.before.cursor? q g = none ∧ t.after.cursor? q g ≠ none

theorem created_of_attaches {t : Transition} {q g : String}
    (does : Does t.before t.now t.action t.result t.after) (attaches : t.Attaches q g) :
    t.deed = ⟨.call (.createGroup q g), .ok ()⟩ ∧
      ∃ Q, t.before.queues.find? q = some Q ∧ t.after.cursor? q g = some Q.lastId := by
  obtain ⟨absent, present⟩ := attaches
  cases standing_of_does does q g with
  | same _ eq => exact absurd (eq.trans absent) present
  | read _ eq =>
    rw [absent, Option.isSome_none, Option.isSome_eq_false_iff, Option.isNone_iff_eq_none] at eq
    exact absurd eq present
  | deleted _ eq => exact absurd eq present
  | created Q deed there eq =>
    rw [absent, Option.getD_none] at eq
    exact ⟨deed, Q, there, eq⟩

theorem cursor?_of_does {h h' : Hub} {now : Moment} {a : Action} {r : a.Result}
    (hd : Does h now a r h') {q g : String} {c : EntryId} (here : h.cursor? q g = some c)
    (kept : a ≠ .delete q) (unread : ¬ a.Reads g) : h'.cursor? q g = some c := by
  cases standing_of_does hd q g with
  | same _ eq => exact eq.trans here
  | read reads _ => exact absurd reads unread
  | deleted gone _ => exact absurd gone kept
  | created Q _ _ eq => rw [eq, here, Option.getD_some]

theorem Run.attached {h₀ h : Hub} {ts : List Transition} (run : Run h₀ ts h) {q g : String}
    (kept : ∀ t ∈ ts, t.action ≠ .delete q) (there : h₀.cursor? q g ≠ none) :
    h.cursor? q g ≠ none := by
  induction run with
  | start => exact there
  | step t earlier does ih =>
    have before := ih fun u hu => kept u (List.mem_cons_of_mem _ hu)
    cases standing_of_does does q g with
    | same _ eq => rwa [eq]
    | read _ eq =>
      rw [← Option.isSome_iff_ne_none] at before ⊢
      rwa [eq]
    | deleted gone _ => exact absurd gone (kept t List.mem_cons_self)
    | created Q _ _ eq =>
      rw [eq]
      exact nofun

theorem Run.exists_attaches {h₀ h : Hub} {ts : List Transition} (run : Run h₀ ts h) {q g : String}
    (absent : h₀.cursor? q g = none) (there : h.cursor? q g ≠ none) :
    ∃ t ∈ ts, t.Attaches q g := by
  induction run with
  | start => exact absurd absent there
  | step t earlier does ih =>
    by_cases before : t.before.cursor? q g = none
    · exact ⟨t, List.mem_cons_self, before, there⟩
    · obtain ⟨u, hu, attaches⟩ := ih before
      exact ⟨u, List.mem_cons_of_mem _ hu, attaches⟩

theorem Run.attached_once {h₀ h : Hub} {t t' : Transition} {between older : List Transition}
    (run : Run h₀ (t' :: (between ++ t :: older)) h) {q g : String} (first : t.Attaches q g)
    (again : t'.Attaches q g) : ∃ d ∈ between, d.action = .delete q := by
  obtain ⟨run, -, -⟩ := run.last
  obtain ⟨h₁, hold, run⟩ := run.split
  obtain ⟨-, -, rfl⟩ := hold.last
  refine Classical.byContradiction fun hnone => ?_
  have kept : ∀ d ∈ between, d.action ≠ .delete q := fun d hd heq => hnone ⟨d, hd, heq⟩
  exact run.attached kept first.2 again.1

theorem appendedSince_append {g q : String} {newer older : List Deed} {d : Deed}
    (creates : d.creates g q = true) (first : older.any (Deed.creates g q) = false) :
    appendedSince g q (newer ++ d :: older) = appendedTo q newer := by
  induction newer with
  | nil =>
    show (if older.any (Deed.creates g q) then _ else []) = []
    rw [first]
    rfl
  | cons d' newer ih =>
    have created : (newer ++ d :: older).any (Deed.creates g q) = true := by simp [creates]
    show (if (newer ++ d :: older).any (Deed.creates g q) then
      appendedSince g q (newer ++ d :: older) ++ d'.appended q else []) = _
    rw [if_pos created, ih]
    rfl

theorem Run.does_of_mem {h₀ h : Hub} {ts : List Transition} (run : Run h₀ ts h) {t : Transition}
    (ht : t ∈ ts) : Does t.before t.now t.action t.result t.after := by
  obtain ⟨newer, older, rfl⟩ := List.append_of_mem ht
  obtain ⟨h₁, hold, -⟩ := run.split
  exact hold.last.2.1

theorem Run.queue_kept {h₀ h : Hub} {ts : List Transition} (run : Run h₀ ts h) {q : String}
    (there : h₀.queues.find? q ≠ none) (gone : h.queues.find? q = none) :
    ∃ d ∈ ts, d.action = .delete q := by
  refine Classical.byContradiction fun hnone => ?_
  have kept : ∀ d ∈ ts, d.action ≠ .delete q := fun d hd heq => hnone ⟨d, hd, heq⟩
  obtain ⟨Q, hQ⟩ := Option.ne_none_iff_exists'.mp there
  have here : h₀.lastId? q = some Q.lastId := by simp [lastId?, hQ]
  obtain ⟨j, hj, -⟩ := run.lastId_le kept here
  unfold lastId? at hj
  rw [gone] at hj
  cases hj

end BrokeredCalls.Hub
