import BrokeredCalls.Broker.Rendezvous
import BrokeredCalls.Node.Effect

namespace BrokeredCalls.Node

/-- A missing handler is a reply like any other failure. -/
def execute (service : String) (payload : Bytes) : Routine Reply := do
  match (← ask (.resolve service)).bind (·.handler) with
  | some h => return Reply.ofResult (← ask (.invoke service h payload))
  | none => return .error (Error.serviceNotFound service).message

def Execution.routine (e : Execution) : Routine Unit := do
  let reply ← execute e.service e.payload
  onBroker e.broker (Broker.deliver e.replyKey reply e.replyTtl)

end BrokeredCalls.Node
