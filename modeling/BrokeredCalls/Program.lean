/-!
Programs that ask their surroundings for things. A program is its answer or one request and what to
do with each answer to it, so running, interleaving and failing requests are left to whoever
interprets it. `Program.expand` writes each request out as a program over other requests.
-/

namespace BrokeredCalls

structure Interface where
  Request : Type
  Answer : Request → Type

inductive Program (I : Interface) (α : Type) where
  | done (a : α)
  | ask (r : I.Request) (next : I.Answer r → Program I α)

namespace Program

variable {I J : Interface} {α β : Type}

def bind : Program I α → (α → Program I β) → Program I β
  | done a, f => f a
  | ask r next, f => ask r fun x => (next x).bind f

instance : Monad (Program I) where
  pure := done
  bind := bind

def request (r : I.Request) : Program I (I.Answer r) := ask r done

theorem ask_bind (r : I.Request) (next : I.Answer r → Program I α) (f : α → Program I β) :
    (ask r next >>= f) = ask r fun x => next x >>= f := rfl

theorem bind_done (p : Program I α) : p.bind done = p := by
  induction p with
  | done a => rfl
  | ask r next ih => exact congrArg (ask r) (funext ih)

theorem bind_assoc {γ : Type} (p : Program I α) (f : α → Program I β) (g : β → Program I γ) :
    (p.bind f).bind g = p.bind fun a => (f a).bind g := by
  induction p with
  | done a => rfl
  | ask r next ih => exact congrArg (ask r) (funext ih)

instance : LawfulMonad (Program I) :=
  LawfulMonad.mk' _ (fun p => bind_done p) (fun _ _ => rfl) bind_assoc

def expand (serve : (r : I.Request) → Program J (I.Answer r)) : Program I α → Program J α
  | done a => done a
  | ask r next => (serve r).bind fun x => (next x).expand serve

def run {m : Type → Type} [Monad m] (serve : (r : I.Request) → m (I.Answer r)) :
    Program I α → m α
  | done a => pure a
  | ask r next => serve r >>= fun x => (next x).run serve

end Program

abbrev Fallible (I : Interface) (ε α : Type) := ExceptT ε (Program I) α

end BrokeredCalls
