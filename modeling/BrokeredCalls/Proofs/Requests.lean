import BrokeredCalls.Node.Basic
import BrokeredCalls.Proofs.Runs

/-!
The parts of a node's calls, each as the one request that it makes and what it makes of the answer, or as
the result it has without a request.
-/

namespace BrokeredCalls.Node

def Shared.located (s : Shared) (service : String) : Option Route → Except Error BrokerId
  | none => .error (.serviceNotFound service)
  | some route => match s.brokerOf route.source with
    | some b => .ok b
    | none => .error (.missingConfig ("no broker for data source " ++ route.source ++ " of " ++ service))

theorem Shared.located_error {s : Shared} {service : String} {route : Option Route} {e : Error}
    (h : s.located service route = .error e) :
    e = .serviceNotFound service ∨ ∃ text, e = .missingConfig text := by
  unfold located at h
  split at h
  · cases h
    exact .inl rfl
  · split at h <;> cases h
    exact .inr ⟨_, rfl⟩

theorem brokerFor_eq (s : Shared) (service : String) : (brokerFor s service).run =
    .ask (I := interface) (.resolve service) fun route => .done (s.located service route) := by
  refine congrArg (Program.ask (I := interface) (.resolve service)) (funext fun route => ?_)
  cases route with
  | none => rfl
  | some route =>
    show ExceptT.run (match s.brokerOf route.source with
      | some b => _
      | none => _) = Program.done (match s.brokerOf route.source with
      | some b => _
      | none => _)
    cases s.brokerOf route.source <;> rfl

theorem requirePayload_eq (service : String) (payload : Bytes) : (requirePayload service payload).run =
    .done (if payload.isEmpty then .error (.emptyPayload service) else .ok ()) := by
  unfold requirePayload
  split <;> rfl

theorem fireTime_eq (instant : Instant) : (fireTime instant).run = .done instant.fireTime := by
  unfold fireTime
  cases instant.fireTime <;> rfl

def received : Except Error (Option Bytes) → Except Error Bytes
  | .error e => .error e
  | .ok none => .error .timeout
  | .ok (some frame) => match Reply.decode frame with
    | .ok reply => reply.toResult
    | .error e => .error e

theorem awaitReply_eq (b : BrokerId) (key : String) (timeout : Duration) :
    (onBrokerAttempt b (Broker.awaitReply key timeout)).run =
      .ask (I := interface) (.broker b (.popReply key timeout)) fun a => .done (received a) := by
  refine congrArg (Program.ask (I := interface) (.broker b (.popReply key timeout))) (funext fun a => ?_)
  cases a with
  | error e => rfl
  | ok popped =>
    cases popped with
    | none => rfl
    | some frame =>
      show Program.expand _ (ExceptT.run ((monadLift (Reply.decode frame) :
        Fallible Broker.interface Error Reply) >>= fun reply => monadLift reply.toResult)) = _
      unfold received
      dsimp only
      cases hd : Reply.decode frame with
      | error e => rfl
      | ok reply => cases reply <;> rfl

theorem decode_error {frame : Bytes} {e : Error} (h : Reply.decode frame = .error e) :
    e.isTransport = true := by
  unfold Reply.decode at h
  split at h
  · cases h
    rfl
  · split at h
    · cases h
    · split at h
      · cases h
      · cases h
        rfl

end BrokeredCalls.Node
