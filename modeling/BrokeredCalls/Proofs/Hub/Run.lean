import BrokeredCalls.Hub.Handle

/-!
Runs of a memory store: calls made one after the other through any handles on it, under any clock,
and deletions of whole queues. A call may also fail on its way, with a transport error and without
effect. Lists of transitions and of deeds hold the newest first.
-/

namespace BrokeredCalls.Hub

open Broker (Call)

inductive Action where
  | call (c : Call)
  | delete (queue : String)
  deriving DecidableEq

abbrev Action.Result : Action → Type
  | call c => Except Error c.Value
  | delete _ => Bool

abbrev Deed := (a : Action) × a.Result

def Does (h : Hub) (now : Moment) : (a : Action) → a.Result → Hub → Prop
  | .call c, r, h' =>
    (∃ (b b' : Handle) (deadline : Nat), b.serve h now deadline c = some (r, b', h')) ∨
      ∃ e : Error, e.isTransport = true ∧ r = .error e ∧ h' = h
  | .delete queue, r, h' => h.deleteQueue queue = (r, h')

structure Transition where
  before : Hub
  now : Moment
  action : Action
  result : action.Result
  after : Hub

def Transition.deed (t : Transition) : Deed := ⟨t.action, t.result⟩

def deeds (ts : List Transition) : List Deed := ts.map Transition.deed

inductive Run (h₀ : Hub) : List Transition → Hub → Prop
  | start : Run h₀ [] h₀
  | step {ts : List Transition} (t : Transition) (earlier : Run h₀ ts t.before)
      (does : Does t.before t.now t.action t.result t.after) : Run h₀ (t :: ts) t.after

theorem Run.split {h₀ h : Hub} {newer older : List Transition} (run : Run h₀ (newer ++ older) h) :
    ∃ h₁, Run h₀ older h₁ ∧ Run h₁ newer h := by
  induction newer generalizing h with
  | nil => exact ⟨h, run, .start⟩
  | cons t newer ih =>
    cases run with
    | step _ earlier does =>
      obtain ⟨h₁, hold, hnew⟩ := ih earlier
      exact ⟨h₁, hold, .step t hnew does⟩

theorem Run.last {h₀ h : Hub} {t : Transition} {ts : List Transition} (run : Run h₀ (t :: ts) h) :
    Run h₀ ts t.before ∧ Does t.before t.now t.action t.result t.after ∧ h = t.after := by
  cases run with
  | step _ earlier does => exact ⟨earlier, does, rfl⟩

theorem serve_of_handle {b b' : Handle} {h h' : Hub} {now : Moment} {deadline : Nat} {c : Call}
    {r : Except Error c.Value} (hs : b.serve h now deadline c = some (r, b', h')) :
    h.serve now deadline c = some (r, h') ∨
      ∃ e : Error, e.isTransport = true ∧ r = .error e ∧ h' = h := by
  cases c with
  | close =>
    simp only [Handle.serve, Option.some.injEq, Prod.mk.injEq] at hs
    obtain ⟨rfl, -, rfl⟩ := hs
    exact .inl rfl
  | _ =>
    simp only [Handle.serve] at hs
    split at hs
    · simp only [Option.some.injEq, Prod.mk.injEq] at hs
      obtain ⟨rfl, -, rfl⟩ := hs
      exact .inr ⟨_, rfl, rfl, rfl⟩
    · obtain ⟨⟨r', k⟩, hk, he⟩ := Option.map_eq_some_iff.mp hs
      simp only [Prod.mk.injEq] at he
      obtain ⟨rfl, -, rfl⟩ := he
      exact .inl hk

theorem Does.cases {h h' : Hub} {now : Moment} {c : Call} {r : Except Error c.Value}
    (hd : Does h now (.call c) r h') :
    (∃ deadline, h.serve now deadline c = some (r, h')) ∨
      ∃ e : Error, e.isTransport = true ∧ r = .error e ∧ h' = h := by
  rcases hd with ⟨b, b', deadline, hs⟩ | hf
  · exact (serve_of_handle hs).imp_left fun hs => ⟨deadline, hs⟩
  · exact .inr hf

theorem does_of_serve {h h' : Hub} {now : Moment} {deadline : Nat} {c : Call}
    {r : Except Error c.Value} (hs : h.serve now deadline c = some (r, h')) :
    Does h now (.call c) r h' := by
  cases c with
  | close =>
    simp only [serve, Option.some.injEq, Prod.mk.injEq] at hs
    obtain ⟨rfl, rfl⟩ := hs
    exact .inl ⟨.new "", _, deadline, rfl⟩
  | _ => exact .inl ⟨.new "", .new "", deadline, by simp [Handle.serve, Handle.new, hs]⟩

def act? (h : Hub) (now : Moment) : (a : Action) → Option (a.Result × Hub)
  | .call c => h.serve now now.clock c
  | .delete queue => some (h.deleteQueue queue)

theorem does_of_act {h h' : Hub} {now : Moment} {a : Action} {r : a.Result}
    (ha : h.act? now a = some (r, h')) : Does h now a r h' := by
  cases a with
  | call c => exact does_of_serve ha
  | delete queue => exact Option.some.inj ha

/-- Actions one after the other, the newest first; a call that would have to wait is not made. -/
def enact (h₀ : Hub) : List (Moment × Action) → List Transition × Hub
  | [] => ([], h₀)
  | (now, a) :: earlier =>
    let (ts, h) := enact h₀ earlier
    match h.act? now a with
    | some (r, h') => (⟨h, now, a, r, h'⟩ :: ts, h')
    | none => (ts, h)

theorem run_enact (h₀ : Hub) (as : List (Moment × Action)) :
    Run h₀ (enact h₀ as).1 (enact h₀ as).2 := by
  induction as with
  | nil => exact .start
  | cons act earlier ih =>
    obtain ⟨now, a⟩ := act
    unfold enact
    generalize enact h₀ earlier = p at ih
    obtain ⟨ts, h⟩ := p
    cases ha : h.act? now a with
    | none =>
      simp only [ha]
      exact ih
    | some served =>
      obtain ⟨r, h'⟩ := served
      simp only [ha]
      exact .step ⟨h, now, a, r, h'⟩ ih (does_of_act ha)

def perform (h₀ : Hub) : List (Moment × Call) → List Transition × Hub
  | [] => ([], h₀)
  | (now, c) :: earlier =>
    let (ts, h) := perform h₀ earlier
    match h.serve now now.clock c with
    | some (r, h') => (⟨h, now, .call c, r, h'⟩ :: ts, h')
    | none => (ts, h)

theorem perform_eq_enact (h₀ : Hub) (cs : List (Moment × Call)) :
    perform h₀ cs = enact h₀ (cs.map fun (now, c) => (now, .call c)) := by
  induction cs with
  | nil => rfl
  | cons call earlier ih =>
    obtain ⟨now, c⟩ := call
    simp only [perform, List.map_cons, enact, act?, ih]
    cases (enact h₀ (earlier.map fun (now, c) => (now, .call c))).2.serve now now.clock c <;> rfl

theorem run_perform (h₀ : Hub) (cs : List (Moment × Call)) :
    Run h₀ (perform h₀ cs).1 (perform h₀ cs).2 := by
  rw [perform_eq_enact]
  exact run_enact h₀ _

end BrokeredCalls.Hub
