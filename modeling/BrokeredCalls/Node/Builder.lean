import BrokeredCalls.Config

/-!
Putting a node together: settings in the order they were made, then the check that every data source
of a route has a broker of its name. Retry settings are kept apart from the configuration and laid
over the one in force when the node is built.
-/

namespace BrokeredCalls

inductive Setting where
  | config (c : Config)
  | callTimeout (d : Duration)
  | readBlock (d : Duration)
  | replyTtl (d : Duration)
  | maxQueueLength (n : Nat)
  | group (name : String)
  | pollInterval (d : Duration)
  | loopBackoff (d : Duration)
  | reloadInterval (d : Duration)
  | retryMaxAttempts (n : UInt32)
  | retryMultiplier (m : Binary)
  | retryInitialDelay (d : Duration)
  | retryMaxDelay (d : Duration)
  deriving DecidableEq, Repr

structure RetryOverrides where
  maxAttempts : Option UInt32
  multiplier : Option Binary
  initialDelay : Option Duration
  maxDelay : Option Duration
  deriving DecidableEq, Repr

namespace RetryOverrides

def none : RetryOverrides := ⟨.none, .none, .none, .none⟩

def isNone (o : RetryOverrides) : Bool :=
  o.maxAttempts.isNone && o.multiplier.isNone && o.initialDelay.isNone && o.maxDelay.isNone

def applyTo (o : RetryOverrides) (c : RetryConfig) : RetryConfig where
  maxAttempts := o.maxAttempts.getD c.maxAttempts
  multiplier := o.multiplier.getD c.multiplier
  initialDelay := o.initialDelay.getD c.initialDelay
  maxDelay := o.maxDelay.getD c.maxDelay

end RetryOverrides

structure NodeBuilder where
  config : Config
  retry : RetryOverrides
  deriving DecidableEq, Repr

namespace NodeBuilder

def new : NodeBuilder := ⟨.default, .none⟩

def apply (b : NodeBuilder) : Setting → NodeBuilder
  | .config c => { b with config := c }
  | .callTimeout d => { b with config.callTimeout := d }
  | .readBlock d => { b with config.readBlock := d }
  | .replyTtl d => { b with config.replyTtl := d }
  | .maxQueueLength n => { b with config.maxQueueLength := n }
  | .group g => { b with config.group := g }
  | .pollInterval d => { b with config.pollInterval := d }
  | .loopBackoff d => { b with config.loopBackoff := d }
  | .reloadInterval d => { b with config.reloadInterval := some d }
  | .retryMaxAttempts n => { b with retry.maxAttempts := some n }
  | .retryMultiplier m => { b with retry.multiplier := some m }
  | .retryInitialDelay d => { b with retry.initialDelay := some d }
  | .retryMaxDelay d => { b with retry.maxDelay := some d }

def applyAll (b : NodeBuilder) (settings : List Setting) : NodeBuilder := settings.foldl apply b

def finish (b : NodeBuilder) : Config :=
  if b.retry.isNone then b.config
  else { b.config with retry := some (b.retry.applyTo (b.config.retry.getD .default)) }

def firstRepeated (seen : List String) : List String → Option String
  | [] => none
  | n :: ns => if n ∈ seen then some n else firstRepeated (n :: seen) ns

def check (brokers sources : List String) : Except Error Unit :=
  if brokers.isEmpty then .error (.missingConfig "at least one broker is required")
  else match firstRepeated [] brokers with
    | some n => .error (.configConflict ("two brokers named " ++ n))
    | none => match sources.find? fun s => s ∉ brokers with
      | some s => .error (.missingConfig ("no broker for data source " ++ s))
      | none => .ok ()

def build (b : NodeBuilder) (brokers sources : List String) : Except Error Config :=
  match check brokers sources with
  | .ok () => .ok b.finish
  | .error e => .error e

end NodeBuilder
end BrokeredCalls
