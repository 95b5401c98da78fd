import BrokeredCalls.Hub.Basic

/-!
A broker handle on a memory store. Any number of handles share a store; closing one shuts that one
alone, and every other call on it fails from then on.
-/

namespace BrokeredCalls.Hub

open Broker (Call)

structure Handle where
  name : String
  closed : Bool
  deriving DecidableEq, Repr, Inhabited

namespace Handle

def new (name : String) : Handle := ⟨name, false⟩

def serve (b : Handle) (h : Hub) (now : Moment) (deadline : Nat) :
    (c : Call) → Option (Except Error c.Value × Handle × Hub)
  | .close => some (.ok (), { b with closed := true }, h)
  | c =>
    if b.closed then some (.error (.brokerClosed b.name), b, h)
    else (h.serve now deadline c).map fun (result, h) => (result, b, h)

end Handle
end BrokeredCalls.Hub
