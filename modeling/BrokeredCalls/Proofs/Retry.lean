import BrokeredCalls.Proofs.Runs
import BrokeredCalls.Retry

/-!
The retry loop, one attempt at a time: without attempts left it tries once and gives up if that is not
enough, else a retryable failure is followed by a draw, a wait and the loop with one attempt fewer.
-/

namespace BrokeredCalls.Retry

variable {α σ : Type}

theorem loop_zero (c : RetryConfig) (d : Duration) :
    loop c 0 d = .ask (I := interface α) .attempt fun
      | .error (.transportRetryable text) => giveUp c text
      | result => .done result := by
  delta loop
  refine congrArg (Program.ask (I := interface α) .attempt) (funext fun r => ?_)
  cases r with
  | ok v => rfl
  | error e => cases e <;> rfl

theorem loop_succ (c : RetryConfig) (n : Nat) (d : Duration) :
    loop c (n + 1) d = .ask (I := interface α) .attempt fun
      | .error (.transportRetryable _) => .ask .draw fun k => match jittered d k with
        | .error why => breakOff (.jitter why)
        | .ok length => .ask (.wait d length) fun _ => match c.nextDelay d with
          | .error why => breakOff (.delay why)
          | .ok next => loop c n next
      | result => .done result := by
  delta loop
  refine congrArg (Program.ask (I := interface α) .attempt) (funext fun r => ?_)
  cases r with
  | ok v => rfl
  | error e => cases e <;> rfl

theorem loop_eq (c : RetryConfig) (n : Nat) (d : Duration) :
    ∃ again : String → Program (interface α) (Except Error α),
      loop c n d = .ask (I := interface α) .attempt fun
        | .error (.transportRetryable text) => again text
        | result => .done result := by
  cases n with
  | zero => exact ⟨_, loop_zero c d⟩
  | succ n => exact ⟨_, loop_succ c n d⟩

/-- The last attempt decides; every one before it failed in a retryable way, and there were at most
`n` of those. -/
inductive Tried (serve : (interface α).Service σ) : Nat → σ → Except Error α → σ → Prop
  | last {n : Nat} {s s' : σ} {r : Except Error α} (served : serve s .attempt r s') : Tried serve n s r s'
  | again {n : Nat} {s s₁ s₂ s₃ s' : σ} {r : Except Error α} (text : String) (k : Draw)
    (d length : Duration) (failed : serve s .attempt (.error (.transportRetryable text)) s₁)
    (drawn : serve s₁ .draw k s₂) (waited : serve s₂ (.wait d length) () s₃)
    (rest : Tried serve n s₃ r s') : Tried serve (n + 1) s r s'

theorem Tried.comes {serve : (interface α).Service σ} {P : σ → Prop}
    {Q : Except Error α → σ → Prop} {n : Nat} {s s' : σ} {r : Except Error α}
    (tried : Tried serve n s r s') (attempt : ∀ s r s', P s → serve s .attempt r s' → Q r s')
    (failed : ∀ text s, Q (.error (.transportRetryable text)) s → P s)
    (drawn : ∀ s k s', P s → serve s .draw k s' → P s')
    (waited : ∀ s d length s', P s → serve s (.wait d length) () s' → P s') (here : P s) : Q r s' := by
  induction tried with
  | last served => exact attempt _ _ _ here served
  | again text k d length first draw pause _ ih =>
    have held := failed _ _ (attempt _ _ _ here first)
    exact ih (waited _ _ _ _ (drawn _ _ _ held draw) pause)

theorem not_runs_breakOff {β : Type} {serve : (interface α).Service σ} {why : Breakdown} {s s' : σ}
    {b : β} : ¬ Program.Runs serve (breakOff why) s b s' := by
  rintro ⟨impossible, _, _, _⟩
  exact impossible.elim

theorem giveUp_runs {serve : (interface α).Service σ} {c : RetryConfig} {text : String} {s s' : σ}
    {r : Except Error α} (h : Program.Runs serve (giveUp c text) s r s') :
    r = .error (.transportRetryable text) ∧ s' = s := by
  unfold giveUp at h
  split at h
  · exact h
  · exact absurd h not_runs_breakOff

theorem tried_of_loop {serve : (interface α).Service σ} {c : RetryConfig} {n : Nat} {d : Duration}
    {s s' : σ} {r : Except Error α} (h : Program.Runs serve (loop c n d) s r s') :
    Tried serve n s r s' := by
  induction n generalizing d s with
  | zero =>
    rw [loop_zero] at h
    obtain ⟨x, s₁, served, h⟩ := h
    cases x with
    | ok v =>
      obtain ⟨rfl, rfl⟩ := h
      exact .last served
    | error e =>
      cases e with
      | transportRetryable text =>
        obtain ⟨rfl, rfl⟩ := giveUp_runs h
        exact .last served
      | _ =>
        obtain ⟨rfl, rfl⟩ := h
        exact .last served
  | succ n ih =>
    rw [loop_succ] at h
    obtain ⟨x, s₁, served, h⟩ := h
    cases x with
    | ok v =>
      obtain ⟨rfl, rfl⟩ := h
      exact .last served
    | error e =>
      cases e with
      | transportRetryable text =>
        obtain ⟨k, s₂, drawn, h⟩ := h
        dsimp only at h
        cases hj : jittered d k with
        | error why =>
          rw [hj] at h
          exact absurd h not_runs_breakOff
        | ok length =>
          rw [hj] at h
          obtain ⟨_, s₃, waited, h⟩ := h
          dsimp only at h
          cases hd : c.nextDelay d with
          | error why =>
            rw [hd] at h
            exact absurd h not_runs_breakOff
          | ok next =>
            rw [hd] at h
            exact .again text k d length served drawn waited (ih h)
      | _ =>
        obtain ⟨rfl, rfl⟩ := h
        exact .last served

theorem runs_loop_again {serve : (interface α).Service σ} {c : RetryConfig} {n : Nat} {k : Draw}
    {d length next : Duration} {text : String} {s s₁ s₂ s₃ s' : σ} {r : Except Error α}
    (failed : serve s .attempt (.error (.transportRetryable text)) s₁) (drawn : serve s₁ .draw k s₂)
    (stretches : jittered d k = .ok length) (waited : serve s₂ (.wait d length) () s₃)
    (follows : c.nextDelay d = .ok next) (rest : Program.Runs serve (loop c n next) s₃ r s') :
    Program.Runs serve (loop c (n + 1) d) s r s' := by
  rw [loop_succ]
  refine ⟨_, s₁, failed, k, s₂, drawn, ?_⟩
  dsimp only
  rw [stretches]
  refine ⟨(), s₃, waited, ?_⟩
  dsimp only
  rw [follows]
  exact rest

theorem runs_loop_ok {serve : (interface α).Service σ} {c : RetryConfig} {d : Duration} (n : Nat)
    {s s' : σ} {v : α} (served : serve s .attempt (.ok v) s') :
    Program.Runs serve (loop c n d) s (.ok v) s' := by
  obtain ⟨again, same⟩ := loop_eq (α := α) c n d
  rw [same]
  exact ⟨_, s', served, rfl, rfl⟩

def retries : Option RetryConfig → Nat
  | none => 0
  | some c => c.maxAttempts.toNat

theorem retries_lt (c : Option RetryConfig) : retries c < UInt32.size := by
  cases c with
  | none => exact (by decide : 0 < UInt32.size)
  | some c => exact c.maxAttempts.toNat_lt

theorem tried_of_program {serve : (interface α).Service σ} {c : Option RetryConfig} {s s' : σ}
    {r : Except Error α} (h : Program.Runs serve (program c) s r s') :
    Tried serve (retries c) s r s' := by
  cases c with
  | none => exact .last (Program.Runs.request_iff.mp h)
  | some c => exact tried_of_loop h

end BrokeredCalls.Retry
