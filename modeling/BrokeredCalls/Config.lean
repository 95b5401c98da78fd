import BrokeredCalls.Retry

namespace BrokeredCalls

structure Config where
  callTimeout : Duration
  readBlock : Duration
  replyTtl : Duration
  maxQueueLength : Nat
  group : String
  readCount : Nat
  pollInterval : Duration
  loopBackoff : Duration
  /-- Repeats only the append of a call, never the wait for its reply. -/
  retry : Option RetryConfig
  reloadInterval : Option Duration
  deriving DecidableEq, Repr

namespace Config

def default : Config where
  callTimeout := .ofSeconds 6
  readBlock := .ofSeconds 20
  replyTtl := .ofSeconds 20
  maxQueueLength := 4096
  group := "rpc"
  readCount := 64
  pollInterval := .ofMillis 100
  loopBackoff := .ofSeconds 1
  retry := none
  reloadInterval := none

def withCallTimeout (c : Config) (d : Duration) : Config := { c with callTimeout := d }
def withMaxQueueLength (c : Config) (n : Nat) : Config := { c with maxQueueLength := n }
def withRetry (c : Config) (r : RetryConfig) : Config := { c with retry := some r }
def withReadCount (c : Config) (n : Nat) : Config := { c with readCount := n }

end Config
end BrokeredCalls
