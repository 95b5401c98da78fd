namespace BrokeredCalls

inductive Error where
  | timeout
  | serviceNotFound (service : String)
  | remote (text : String)
  | handler (text : String)
  | serialization (reason : String)
  | transport (text : String)
  /-- A transport failure after which the same operation may be tried again. -/
  | transportRetryable (text : String)
  | missingQueue (queue : String)
  | missingConfig (what : String)
  | configConflict (what : String)
  | emptyPayload (service : String)
  | invalidFireTime (reason : String)
  deriving DecidableEq, Repr, Inhabited

namespace Error

def message : Error → String
  | timeout => "no response: request timed out"
  | serviceNotFound s => "service not found: " ++ s
  | remote t => "remote handler error: " ++ t
  | handler t => "handler error: " ++ t
  | serialization r => "serialization error: " ++ r
  | transport t => "transport error: " ++ t
  | transportRetryable t => "transport error (retryable): " ++ t
  | missingQueue q => "missing queue or consumer group: " ++ q
  | missingConfig w => "missing configuration: " ++ w
  | configConflict w => "configuration conflict: " ++ w
  | emptyPayload s => "empty payload for service: " ++ s
  | invalidFireTime r => "invalid fire time: " ++ r

def isRetryable : Error → Bool
  | transportRetryable _ => true
  | _ => false

def isTransport : Error → Bool
  | transport _ | transportRetryable _ => true
  | _ => false

def brokerClosed (name : String) : Error := transport (name ++ ": broker closed")

end Error
end BrokeredCalls
