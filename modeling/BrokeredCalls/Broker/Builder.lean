import BrokeredCalls.Error
import BrokeredCalls.Text.Quoted

/-!
Choosing a broker: which transport, under which data source name, reading as which consumer. The
transport is the one asked for, else the memory store if one was given, else what the scheme of the
address says.
-/

namespace BrokeredCalls

inductive Transport where
  | memory (own : Bool)
  | redis (uri : String)
  deriving DecidableEq, Repr

structure BrokerPlan where
  name : String
  consumer : String
  transport : Transport
  deriving DecidableEq, Repr

structure BrokerBuilder where
  uri : Option String
  name : Option String
  consumer : Option String
  uniqueConsumer : Bool
  transportType : Option String
  hub : Bool
  deriving DecidableEq, Repr

namespace BrokerBuilder

def new : BrokerBuilder := ⟨none, none, none, false, none, false⟩

def defaultName : String := "default"
def defaultConsumer : String := "rpc"

def schemeChars : List Char → List Char
  | [] => []
  | c :: cs => if "://".toList.isPrefixOf (c :: cs) then [] else c :: schemeChars cs

def scheme (uri : String) : String := String.ofList (schemeChars uri.toList)

def inferType (uri : String) : Except Error String :=
  if uri.isEmpty || "memory:".toList.isPrefixOf uri.toList then .ok "memory"
  else
    let s := scheme uri
    if s ∈ ["redis", "rediss", "redis+unix", "unix"] then .ok "redis"
    else .error (.transport ("cannot infer broker type from URI scheme " ++ Quoted.encode s))

def chooseType (b : BrokerBuilder) : Except Error String :=
  match b.transportType with
  | some t => .ok t
  | none => if b.hub then .ok "memory" else inferType (b.uri.getD "")

/-- `freshId` tells a consumer of its own from all others. -/
def consumerName (b : BrokerBuilder) (freshId : String) : String :=
  match b.consumer with
  | some c => c
  | none =>
    if b.uniqueConsumer then b.name.getD defaultName ++ "-" ++ freshId else defaultConsumer

def build (b : BrokerBuilder) (freshId : String) : Except Error BrokerPlan := do
  if b.uniqueConsumer && b.consumer.isSome then
    throw (.configConflict "Cannot use both consumer() and unique_consumer()")
  let type ← b.chooseType
  if b.hub && type != "memory" then
    throw (.configConflict ("memory_hub() given for transport_type " ++ type))
  let plan := BrokerPlan.mk (b.name.getD defaultName) (b.consumerName freshId)
  match type with
  | "memory" => return plan (.memory b.hub)
  | "redis" => return plan (.redis (b.uri.getD ""))
  | other =>
    throw (.transport
      ("unrecognized transport_type: " ++ other ++ ", valid values: memory, redis"))

end BrokerBuilder
end BrokeredCalls
