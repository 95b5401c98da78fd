import BrokeredCalls.Broker.Call

/-!
What stands between a program and a broker handle: every call is noted, and faults decide which calls
fail before they reach the broker.
-/

namespace BrokeredCalls.Simulation

structure Fault where
  method : String
  skip : Nat
  times : Nat
  deleteQueue : Option String
  error : Option Error
  deriving DecidableEq, Repr

namespace Fault

/-- The first fault about a method decides; one that has struck often enough is gone. -/
def strike (method : String) : List Fault → Option Fault × List Fault
  | [] => (none, [])
  | f :: fs =>
    if f.method ≠ method then
      let (hit, fs) := strike method fs
      (hit, f :: fs)
    else if 0 < f.skip then (none, { f with skip := f.skip - 1 } :: fs)
    else if f.times ≤ 1 then (some f, fs)
    else (some f, { f with times := f.times - 1 } :: fs)

end Fault

structure Probe where
  faults : List Fault
  /-- Newest first. -/
  noted : List Broker.Call
  deriving Repr

namespace Probe

def new : Probe := ⟨[], []⟩

instance : Inhabited Probe := ⟨new⟩

/-- Blocking reads are too many to be noted. -/
def notes : Broker.Call → Bool
  | .readGroup .. => false
  | _ => true

def meet (p : Probe) (c : Broker.Call) : Option Fault × Probe :=
  let (hit, faults) := Fault.strike c.name p.faults
  (hit, ⟨faults, if notes c then c :: p.noted else p.noted⟩)

def addFault (p : Probe) (f : Fault) : Probe := { p with faults := p.faults ++ [f] }

def take (p : Probe) : List Broker.Call × Probe := (p.noted.reverse, { p with noted := [] })

end Probe
end BrokeredCalls.Simulation
