import BrokeredCalls.Broker.Call

namespace BrokeredCalls.Broker

/-- Creates the group; a queue that is gone by then is made again once. -/
def createGroupAgain (queue group : String) : Fallible interface Error Unit := do
  match ← attempt (.createGroup queue group) with
  | .ok _ => return ()
  | .error (.missingQueue _) => do
    perform (.appendPlaceholder queue)
    perform (.createGroup queue group)
  | .error e => throw e

/-- A queue that vanishes between the look and the listing counts as one without groups. -/
def ensureGroup (queue group : String) : Fallible interface Error Unit := do
  if !(← call (.queueExists queue)) then
    perform (.appendPlaceholder queue)
  match ← attempt (.listGroups queue) with
  | .ok groups => if group ∈ groups then return () else createGroupAgain queue group
  | .error (.missingQueue _) => createGroupAgain queue group
  | .error e => throw e

end BrokeredCalls.Broker
