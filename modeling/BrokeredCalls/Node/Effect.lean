import BrokeredCalls.Broker.Call
import BrokeredCalls.Config
import BrokeredCalls.Registry
import BrokeredCalls.TaskQueue

/-!
What the programs of a node ask for: calls on its brokers, accesses to its pending list and to the
registry, clocks and waits, and the start of work that runs beside it. Every request is one step that
no other program of any node cuts in two; between two requests anything may happen.
-/

namespace BrokeredCalls

abbrev BrokerId := Nat

/-- A stop signal: raised once, or abandoned when nobody is left to raise it. -/
abbrev SignalId := Nat

namespace Node

structure Execution where
  broker : BrokerId
  service : String
  payload : Bytes
  replyKey : String
  replyTtl : Duration
  deriving DecidableEq, Repr

inductive Loop where
  | dispatch (broker : BrokerId) (consumer : String) (services : List String) (stop : SignalId)
  | fire (stop : SignalId) (lastResync : Nat)
  deriving DecidableEq, Repr

inductive Ended (α : Type) where
  | value (a : α)
  | raised
  | abandoned

inductive Effect where
  | broker (b : BrokerId) (c : Broker.Call)
  | readUnlessStopped (b : BrokerId) (group consumer : String) (services : List String)
      (count : Nat) (block : Duration) (stop : SignalId)
  | pauseUnlessStopped (d : Duration) (stop : SignalId)
  | isRaised (stop : SignalId)
  | sleep (d : Duration)
  | draw
  | reading
  /-- Nanoseconds on a clock that nothing shifts. -/
  | clock
  | pending (a : TaskQueue.Access)
  | resolve (service : String)
  | servicesOn (source : String)
  | invoke (service : String) (h : Handler) (payload : Bytes)
  | start (e : Execution)
  /-- Marks the node as spawned and answers whether it was not before. -/
  | claimSpawn
  | releaseSpawn
  | subscribe
  | launch (loops : List Loop)
  | raiseStop
  | joinWorkers
  | abort (why : Retry.Breakdown)

abbrev Effect.Answer : Effect → Type
  | broker _ c => Except Error c.Value
  | readUnlessStopped .. => Ended (Except Error (List Delivery))
  | pauseUnlessStopped .. => Ended Unit
  | isRaised _ | claimSpawn => Bool
  | sleep _ | start _ | releaseSpawn | launch _ | raiseStop | joinWorkers => Unit
  | draw => Retry.Draw
  | reading => FireTime
  | clock => Nat
  | pending a => a.Value
  | resolve _ => Option Route
  | servicesOn _ => List String
  | invoke .. => Except Error Bytes
  | subscribe => SignalId
  | abort _ => Empty

abbrev interface : Interface where
  Request := Effect
  Answer := Effect.Answer

abbrev Routine (α : Type) := Program interface α

abbrev Attempt (α : Type) := Fallible interface Error α

def ask (e : Effect) : Routine e.Answer := Program.request (I := interface) e

def onBroker {α : Type} (b : BrokerId) (p : Program Broker.interface α) : Routine α :=
  p.expand fun c => ask (.broker b c)

def onBrokerAttempt {α : Type} (b : BrokerId) (p : Fallible Broker.interface Error α) : Attempt α :=
  ExceptT.mk (onBroker b p.run)

structure Source where
  name : String
  broker : BrokerId
  consumer : String
  deriving DecidableEq, Repr

structure Shared where
  sources : List Source
  config : Config
  deriving Repr

def Shared.brokerOf (s : Shared) (source : String) : Option BrokerId :=
  (s.sources.find? fun x => x.name = source).map (·.broker)

end Node
end BrokeredCalls
