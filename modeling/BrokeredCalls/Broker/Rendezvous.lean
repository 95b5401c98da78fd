import BrokeredCalls.Broker.Call
import BrokeredCalls.Reply

namespace BrokeredCalls.Broker

/-- Leaves the reply for one taker. A failure is dropped: the call has run, nobody is left to tell. -/
def deliver (key : String) (reply : Reply) (ttl : Duration) : Program interface Unit := do
  let _ ← Program.request (I := interface) (.pushReply key reply.encode ttl)
  return ()

def awaitReply (key : String) (timeout : Duration) : Fallible interface Error Bytes := do
  match ← call (.popReply key timeout) with
  | none => throw .timeout
  | some frame => do
    let reply ← (Reply.decode frame : Except Error Reply)
    (reply.toResult : Except Error Bytes)

end BrokeredCalls.Broker
