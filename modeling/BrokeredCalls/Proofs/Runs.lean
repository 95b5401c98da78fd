import BrokeredCalls.Proofs.Conduct

/-!
Runs of a program to its end: each request is served by a move from one state to the next.
-/

namespace BrokeredCalls

abbrev Interface.Service (I : Interface) (σ : Type) := σ → (r : I.Request) → I.Answer r → σ → Prop

namespace Program

variable {I J : Interface} {σ ε α β : Type} {serve : I.Service σ} {s s' : σ}

def Runs (serve : I.Service σ) : Program I α → σ → α → σ → Prop
  | done a, s, b, s' => b = a ∧ s' = s
  | ask r next, s, b, s' => ∃ x s₁, serve s r x s₁ ∧ Runs serve (next x) s₁ b s'

namespace Runs

theorem ask_iff {r : I.Request} {next : I.Answer r → Program I α} {b : α} :
    Runs serve (.ask r next) s b s' ↔ ∃ x s₁, serve s r x s₁ ∧ Runs serve (next x) s₁ b s' := Iff.rfl

theorem bind_iff {p : Program I α} {f : α → Program I β} {b : β} :
    Runs serve (p >>= f) s b s' ↔ ∃ a s₁, Runs serve p s a s₁ ∧ Runs serve (f a) s₁ b s' := by
  induction p generalizing s with
  | done a =>
    constructor
    · intro h
      exact ⟨a, s, ⟨rfl, rfl⟩, h⟩
    · rintro ⟨_, _, ⟨rfl, rfl⟩, h⟩
      exact h
  | ask r next ih =>
    rw [ask_bind, ask_iff]
    constructor
    · rintro ⟨x, s₁, served, h⟩
      obtain ⟨a, s₂, hp, hf⟩ := (ih x).mp h
      exact ⟨a, s₂, ⟨x, s₁, served, hp⟩, hf⟩
    · rintro ⟨a, s₂, ⟨x, s₁, served, hp⟩, hf⟩
      exact ⟨x, s₁, served, (ih x).mpr ⟨a, s₂, hp, hf⟩⟩

theorem request_iff {r : I.Request} {x : I.Answer r} :
    Runs serve (request r) s x s' ↔ serve s r x s' := by
  constructor
  · rintro ⟨_, _, served, rfl, rfl⟩
    exact served
  · intro served
    exact ⟨x, s', served, rfl, rfl⟩

theorem bindExcept_iff {p : Fallible I ε α} {f : α → Fallible I ε β} {r : Except ε β} :
    Runs serve (p >>= f).run s r s' ↔
      (∃ a s₁, Runs serve p.run s (.ok a) s₁ ∧ Runs serve (f a).run s₁ r s') ∨
        ∃ e, Runs serve p.run s (.error e) s' ∧ r = .error e := by
  refine bind_iff.trans ⟨?_, ?_⟩
  · rintro ⟨a, s₁, hp, hf⟩
    cases a with
    | ok a => exact .inl ⟨a, s₁, hp, hf⟩
    | error e =>
      obtain ⟨rfl, rfl⟩ := hf
      exact .inr ⟨e, hp, rfl⟩
  · rintro (⟨a, s₁, hp, hf⟩ | ⟨e, hp, rfl⟩)
    · exact ⟨.ok a, s₁, hp, hf⟩
    · exact ⟨.error e, s', hp, rfl, rfl⟩

theorem lift_iff {p : Program I α} {r : Except ε α} :
    Runs serve (ExceptT.lift p : Fallible I ε α).run s r s' ↔ ∃ a, Runs serve p s a s' ∧ r = .ok a := by
  refine bind_iff.trans ⟨?_, ?_⟩
  · rintro ⟨a, _, hp, rfl, rfl⟩
    exact ⟨a, hp, rfl⟩
  · rintro ⟨a, hp, rfl⟩
    exact ⟨a, s', hp, rfl, rfl⟩

theorem bindLift_iff {p : Program I α} {f : α → Fallible I ε β} {r : Except ε β} :
    Runs serve ((ExceptT.lift p : Fallible I ε α) >>= f).run s r s' ↔
      ∃ a s₁, Runs serve p s a s₁ ∧ Runs serve (f a).run s₁ r s' := by
  rw [bindExcept_iff]
  constructor
  · rintro (⟨a, s₁, hp, hf⟩ | ⟨e, hp, -⟩)
    · obtain ⟨_, hp, same⟩ := lift_iff.mp hp
      cases same
      exact ⟨a, s₁, hp, hf⟩
    · obtain ⟨_, -, same⟩ := lift_iff.mp hp
      cases same
  · rintro ⟨a, s₁, hp, hf⟩
    exact .inl ⟨a, s₁, lift_iff.mpr ⟨a, hp, rfl⟩, hf⟩

theorem expand_iff {serve : J.Service σ} {server : (r : I.Request) → Program J (I.Answer r)}
    {p : Program I α} {a : α} :
    Runs serve (p.expand server) s a s' ↔
      Runs (fun s r x s' => Runs serve (server r) s x s') p s a s' := by
  induction p generalizing s with
  | done a => rfl
  | ask r next ih =>
    refine bind_iff.trans ⟨?_, ?_⟩
    · rintro ⟨x, s₁, served, h⟩
      exact ⟨x, s₁, served, (ih x).mp h⟩
    · rintro ⟨x, s₁, served, h⟩
      exact ⟨x, s₁, served, (ih x).mpr h⟩

theorem map {τ : Type} {serve' : I.Service τ} (f : σ → τ)
    (sees : ∀ s r x s', serve s r x s' → serve' (f s) r x (f s')) {p : Program I α} {a : α}
    (run : Runs serve p s a s') : Runs serve' p (f s) a (f s') := by
  induction p generalizing s with
  | done b =>
    obtain ⟨rfl, rfl⟩ := run
    exact ⟨rfl, rfl⟩
  | ask r next ih =>
    obtain ⟨x, s₁, served, rest⟩ := run
    exact ⟨x, f s₁, sees s r x s₁ served, ih x rest⟩

theorem relates {P : I.Request → Prop} {R : σ → σ → Prop} (refl : ∀ s, R s s)
    (trans : ∀ s s₁ s', R s s₁ → R s₁ s' → R s s')
    (moves : ∀ s r x s', P r → serve s r x s' → R s s') {p : Program I α} {a : α} (asks : Asks P p)
    (run : Runs serve p s a s') : R s s' := by
  induction p generalizing s with
  | done b =>
    obtain ⟨-, rfl⟩ := run
    exact refl s'
  | ask r next ih =>
    obtain ⟨x, s₁, served, rest⟩ := run
    exact trans s s₁ s' (moves s r x s₁ asks.1 served) (ih x (asks.2 x) rest)

end Runs

theorem Asks.runs_congr {serve' : I.Service σ} {P : I.Request → Prop} {p : Program I α} {a : α}
    (asks : Asks P p) (same : ∀ r, P r → ∀ s x s', serve s r x s' ↔ serve' s r x s') :
    Runs serve p s a s' ↔ Runs serve' p s a s' := by
  induction p generalizing s with
  | done b => exact Iff.rfl
  | ask r next ih =>
    refine exists_congr fun x => exists_congr fun s₁ => ?_
    exact and_congr (same r asks.1 s x s₁) (ih x (asks.2 x))

theorem Asks.exists_runs {P : I.Request → Prop} {p : Program I α} (h : Asks P p)
    (served : ∀ r, P r → ∀ s, ∃ x s', serve s r x s') (s : σ) : ∃ a s', Runs serve p s a s' := by
  induction p generalizing s with
  | done a => exact ⟨a, s, rfl, rfl⟩
  | ask r next ih =>
    obtain ⟨x, s₁, hr⟩ := served r h.1 s
    obtain ⟨a, s', rest⟩ := ih x (h.2 x) s₁
    exact ⟨a, s', x, s₁, hr, rest⟩

end Program
end BrokeredCalls
