import BrokeredCalls.Program

/-!
What a program may ask for, given all that it asked and was answered before. A program obeys a conduct
if whatever credible answers it gets, each of its requests is within the rule and its end is as
promised. Traces hold the newest exchange first.
-/

namespace BrokeredCalls

variable {I : Interface} {ε α β : Type}

abbrev Exchange (I : Interface) := (r : I.Request) × I.Answer r

abbrev Trace (I : Interface) := List (Exchange I)

/-- What is assumed of answers and demanded of requests. -/
structure Conduct (I : Interface) where
  credible : (r : I.Request) → I.Answer r → Prop
  rule : Trace I → I.Request → Prop

namespace Conduct

variable (K : Conduct I)

def Conforms : Trace I → Prop
  | [] => True
  | x :: tr => K.rule tr x.1 ∧ K.credible x.1 x.2 ∧ Conforms tr

theorem Conforms.mono {K K' : Conduct I} {tr : Trace I} (h : K.Conforms tr)
    (rule : ∀ tr r, K.rule tr r → K'.rule tr r)
    (credible : ∀ r a, K.credible r a → K'.credible r a) : K'.Conforms tr := by
  induction tr with
  | nil => trivial
  | cons x tr ih => exact ⟨rule tr x.1 h.1, credible x.1 x.2 h.2.1, ih h.2.2⟩

end Conduct

namespace Program

variable {K : Conduct I}

def Obeys (K : Conduct I) (post : Trace I → α → Prop) : Trace I → Program I α → Prop
  | tr, done a => post tr a
  | tr, ask r next => K.rule tr r ∧ ∀ a, K.credible r a → Obeys K post (⟨r, a⟩ :: tr) (next a)

namespace Obeys

variable {post post' : Trace I → α → Prop} {tr : Trace I}

theorem done {a : α} (h : post tr a) : Obeys K post tr (.done a) := h

theorem ask {r : I.Request} {next : I.Answer r → Program I α} (h : K.rule tr r)
    (k : ∀ a, K.credible r a → Obeys K post (⟨r, a⟩ :: tr) (next a)) :
    Obeys K post tr (.ask r next) := ⟨h, k⟩

theorem mono {p : Program I α} (h : Obeys K post tr p) (k : ∀ tr a, post tr a → post' tr a) :
    Obeys K post' tr p := by
  induction p generalizing tr with
  | done a => exact k tr a h
  | ask r next ih => exact ⟨h.1, fun a ha => ih a (h.2 a ha)⟩

theorem both {p : Program I α} (h : Obeys K post tr p)
    (ends : Obeys ⟨K.credible, fun _ _ => True⟩ post' tr p) :
    Obeys K (fun tr a => post tr a ∧ post' tr a) tr p := by
  induction p generalizing tr with
  | done a => exact ⟨h, ends⟩
  | ask r next ih => exact ⟨h.1, fun a ha => ih a (h.2 a ha) (ends.2 a ha)⟩

theorem and {K' : Conduct I} {p : Program I α} (h : Obeys K post tr p) (h' : Obeys K' post' tr p) :
    Obeys ⟨fun r a => K.credible r a ∧ K'.credible r a, fun tr r => K.rule tr r ∧ K'.rule tr r⟩
      (fun tr a => post tr a ∧ post' tr a) tr p := by
  induction p generalizing tr with
  | done a => exact ⟨h, h'⟩
  | ask r next ih => exact ⟨⟨h.1, h'.1⟩, fun a ha => ih a (h.2 a ha.1) (h'.2 a ha.2)⟩

theorem bind {p : Program I α} {f : α → Program I β} {post : Trace I → β → Prop}
    (h : Obeys K (fun tr a => Obeys K post tr (f a)) tr p) : Obeys K post tr (p >>= f) := by
  induction p generalizing tr with
  | done a => exact h
  | ask r next ih => exact ⟨h.1, fun a ha => ih a (h.2 a ha)⟩

theorem request {r : I.Request} {post : Trace I → I.Answer r → Prop} (h : K.rule tr r)
    (k : ∀ a, K.credible r a → post (⟨r, a⟩ :: tr) a) :
    Obeys K post tr (Program.request r) := ⟨h, k⟩

theorem bindExcept {p : Fallible I ε α} {f : α → Fallible I ε β}
    {post : Trace I → Except ε β → Prop}
    (h : Obeys K (fun tr r => match r with
      | .ok a => Obeys K post tr (f a).run
      | .error e => post tr (.error e)) tr p.run) : Obeys K post tr (p >>= f).run := by
  refine bind (h.mono fun tr r hr => ?_)
  cases r with
  | ok a => exact hr
  | error e => exact hr

theorem lift {p : Program I α} {post : Trace I → Except ε α → Prop}
    (h : Obeys K (fun tr a => post tr (.ok a)) tr p) :
    Obeys K post tr (ExceptT.lift p : Fallible I ε α).run := bind (h.mono fun _ _ ha => ha)

/-- What a program keeps to while it is answered well is a rule for any answers: it binds as long as
all of them were good. -/
theorem given {C : Prop} {credible : (r : I.Request) → I.Answer r → Prop} {p : Program I α}
    (h : C → (∀ x ∈ tr, K.credible x.1 x.2) → Obeys K post tr p) :
    Obeys ⟨credible, fun tr r => C → (∀ x ∈ tr, K.credible x.1 x.2) → K.rule tr r⟩
      (fun tr a => C → (∀ x ∈ tr, K.credible x.1 x.2) → post tr a) tr p := by
  induction p generalizing tr with
  | done a => exact h
  | ask r next ih =>
    refine ⟨fun c good => (h c good).1, fun a _ => ih a fun c good => ?_⟩
    exact (h c fun x hx => good x (List.mem_cons_of_mem _ hx)).2 a (good _ List.mem_cons_self)

end Obeys

def Asks (P : I.Request → Prop) : Program I α → Prop
  | done _ => True
  | ask r next => P r ∧ ∀ a, Asks P (next a)

namespace Asks

variable {P : I.Request → Prop}

theorem bind {p : Program I α} {f : α → Program I β} (h : Asks P p) (k : ∀ a, Asks P (f a)) :
    Asks P (p >>= f) := by
  induction p with
  | done a => exact k a
  | ask r next ih => exact ⟨h.1, fun a => ih a (h.2 a)⟩

theorem request {r : I.Request} (h : P r) : Asks P (Program.request r) := ⟨h, fun _ => trivial⟩

theorem bindExcept {p : Fallible I ε α} {f : α → Fallible I ε β} (h : Asks P p.run)
    (k : ∀ a, Asks P (f a).run) : Asks P (p >>= f).run := by
  refine bind h fun r => ?_
  cases r with
  | ok a => exact k a
  | error e => exact trivial

theorem lift {p : Program I α} (h : Asks P p) : Asks P (ExceptT.lift p : Fallible I ε α).run :=
  bind h fun _ => trivial

theorem mono {Q : I.Request → Prop} {p : Program I α} (h : Asks P p) (k : ∀ r, P r → Q r) :
    Asks Q p := by
  induction p with
  | done a => trivial
  | ask r next ih => exact ⟨k r h.1, fun a => ih a (h.2 a)⟩

theorem of_forall (h : ∀ r, P r) (p : Program I α) : Asks P p := by
  induction p with
  | done a => trivial
  | ask r next ih => exact ⟨h r, ih⟩

theorem expand {J : Interface} {P : J.Request → Prop}
    {serve : (r : I.Request) → Program J (I.Answer r)} {p : Program I α}
    (h : Asks (fun r => Asks P (serve r)) p) : Asks P (p.expand serve) := by
  induction p with
  | done a => trivial
  | ask r next ih => exact bind h.1 fun a => ih a (h.2 a)

theorem obeys {Inv : Trace I → Prop} {p : Program I α} {tr : Trace I} (h : Asks P p)
    (rule : ∀ tr r, Inv tr → P r → K.rule tr r)
    (keeps : ∀ tr r a, Inv tr → P r → Inv (⟨r, a⟩ :: tr)) (here : Inv tr) :
    Obeys K (fun tr _ => Inv tr) tr p := by
  induction p generalizing tr with
  | done a => exact here
  | ask r next ih => exact ⟨rule tr r here h.1, fun a _ => ih a (h.2 a) (keeps tr r a here h.1)⟩

theorem allowed {p : Program I α} {tr : Trace I} (h : Asks P p) (rule : ∀ tr r, P r → K.rule tr r) :
    Obeys K (fun _ _ => True) tr p :=
  h.obeys (fun tr r _ => rule tr r) (fun _ _ _ _ _ => trivial) trivial

end Asks

def Comes (r : I.Request) : Program I α → Prop
  | done _ => False
  | ask r' next => r = r' ∨ ∃ a, Comes r (next a)

namespace Comes

variable {r : I.Request}

theorem bind {p : Program I α} {f : α → Program I β} (h : Comes r p) : Comes r (p >>= f) := by
  induction p with
  | done a => exact h.elim
  | ask r' next ih => exact h.imp_right fun ⟨a, rest⟩ => ⟨a, ih a rest⟩

end Comes

theorem Asks.of_comes {P : I.Request → Prop} {r : I.Request} {p : Program I α} (asks : Asks P p)
    (comes : Comes r p) : P r := by
  induction p with
  | done a => exact comes.elim
  | ask r' next ih =>
    rcases comes with rfl | ⟨a, rest⟩
    · exact asks.1
    · exact ih a (asks.2 a) rest

def Within : Nat → Program I α → Prop
  | _, done _ => True
  | 0, ask _ _ => False
  | n + 1, ask _ next => ∀ a, Within n (next a)

theorem Within.mono {m n : Nat} (le : m ≤ n) {p : Program I α} (h : Within m p) : Within n p := by
  induction p generalizing m n with
  | done a => cases n <;> exact trivial
  | ask r next ih =>
    cases m with
    | zero => exact h.elim
    | succ m =>
      cases n with
      | zero => exact absurd le (Nat.not_succ_le_zero m)
      | succ n => exact fun a => ih a (Nat.le_of_succ_le_succ le) (h a)

end Program
end BrokeredCalls
