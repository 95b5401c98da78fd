import BrokeredCalls.FireTime

namespace BrokeredCalls.Key

def delay (service : String) : String := service ++ ":delay"

def reply (service entryId : String) : String := service ++ ":reply:" ++ entryId

def deferredReply (service : String) (t : FireTime) : String :=
  service ++ ":reply:at:" ++ Decimal.ofInt64 t

end BrokeredCalls.Key
