import BrokeredCalls.Error
import BrokeredCalls.Text.Quoted

/-!
What a Redis server answers, and what can be wrong with an answer. An error that the server signals is a
value like another until somebody looks for it.
-/

namespace BrokeredCalls.Redis

structure ServerError where
  code : String
  detail : Option String
  deriving DecidableEq, Repr

/-- An error text: its first word is the code. -/
def ServerError.ofText (text : String) : ServerError :=
  let code := text.toList.takeWhile (· ≠ ' ')
  match text.toList.drop code.length with
  | [] => ⟨String.ofList code, none⟩
  | _ :: detail => ⟨String.ofList code, some (String.ofList detail)⟩

inductive Value where
  | nil
  | int (n : Int)
  | bulk (bytes : Bytes)
  | status (text : String)
  | array (items : List Value)
  | error (e : ServerError)
  deriving Repr, Inhabited

namespace ServerError

def knownKinds : List (String × String) :=
  [("ERR", "ResponseError"), ("EXECABORT", "ExecAbortError"), ("LOADING", "BusyLoadingError"),
    ("NOSCRIPT", "NoScriptError"), ("MOVED", "Moved"), ("ASK", "Ask"), ("TRYAGAIN", "TryAgain"),
    ("CLUSTERDOWN", "ClusterDown"), ("CROSSSLOT", "CrossSlot"), ("MASTERDOWN", "MasterDown"),
    ("READONLY", "ReadOnly"), ("NOTBUSY", "NotBusy")]

def kind? (e : ServerError) : Option String := (knownKinds.find? fun k => k.1 = e.code).map (·.2)

def message (e : ServerError) : String :=
  match e.kind?, e.detail with
  | some kind, some detail => "An error was signalled by the server - " ++ kind ++ ": " ++ detail
  | some kind, none => "An error was signalled by the server- " ++ kind
  | none, some detail => e.code ++ ": " ++ detail
  | none, none => e.code ++ ": Unknown extension error encountered"

def hasOwnCode (e : ServerError) (code : String) : Bool := e.kind?.isNone && e.code == code

end ServerError

namespace Value

mutual

def shown : Value → String
  | nil => "nil"
  | int n => "int(" ++ toString n ++ ")"
  | bulk b => match Utf8.decode? b with
    | some s => "bulk-string('" ++ Quoted.encode s ++ "')"
    | none => "binary-data([" ++ ", ".intercalate (b.map toString) ++ "])"
  | status s => if s = "OK" then "ok" else "simple-string(" ++ Quoted.encode s ++ ")"
  | array items => "array([" ++ ", ".intercalate (shownItems items) ++ "])"
  | error e => e.message

def shownItems : List Value → List String
  | [] => []
  | v :: vs => v.shown :: shownItems vs

end

mutual

def signalled? : Value → Option ServerError
  | error e => some e
  | array items => signalledIn? items
  | _ => none

def signalledIn? : List Value → Option ServerError
  | [] => none
  | v :: vs => match v.signalled? with
    | some e => some e
    | none => signalledIn? vs

end
end Value

inductive Failure where
  | server (e : ServerError)
  | shape (answer : String)
  | notText
  | transaction
  | dropped
  | unreachable (reason : String)
  deriving DecidableEq, Repr

namespace Failure

def message : Failure → String
  | server e => e.message
  | shape answer => "Response was of incompatible type - TypeError: (response was " ++ answer ++ ")"
  | notText => "Invalid UTF-8- TypeError"
  | transaction => "Invalid response when parsing multi response- ResponseError"
  | dropped => "broken pipe"
  | unreachable reason => reason

/-- Only trouble with the connection says nothing against the command itself. -/
def isRetryable : Failure → Bool
  | dropped | unreachable _ => true
  | _ => false

end Failure
end BrokeredCalls.Redis
