import BrokeredCalls.Error
import BrokeredCalls.Number.Decimal
import BrokeredCalls.Redis.Command
import BrokeredCalls.Text.Hex

/-!
Addresses of Redis servers and the first connection to one. An address is a URI of a socket file or of
a host; nothing here speaks to a server over an encrypted connection, so such addresses cannot be
opened.
-/

namespace BrokeredCalls.Redis

inductive Endpoint where
  | socket (path : String)
  | host (name : String)
  deriving DecidableEq, Repr

namespace Endpoint

def isSchemeChar (c : Char) : Bool := c.isAlphanum || c = '+' || c = '-' || c = '.'

/-- Blanks and controls around an address do not count, nor do tabs and line ends within. -/
def trim (cs : List Char) : List Char :=
  let fore := cs.dropWhile (·.toNat ≤ 0x20)
  let both := (fore.reverse.dropWhile (·.toNat ≤ 0x20)).reverse
  both.filter fun c => c ≠ '\t' && c ≠ '\n' && c ≠ '\r'

def scheme? (cs : List Char) : Option (String × List Char) :=
  let s := cs.takeWhile isSchemeChar
  match s.head?, cs.drop s.length with
  | some c, ':' :: rest => if c.isAlpha then some (String.ofList (s.map Char.toLower), rest) else none
  | _, _ => none

def cutAt (stop : Char) (cs : List Char) : List Char × List Char :=
  (cs.takeWhile (· ≠ stop), (cs.dropWhile (· ≠ stop)).drop 1)

/-- What stands between the slashes and the path, if there is such a place, and the path. -/
def authority : List Char → Option (List Char) × List Char
  | '/' :: '/' :: r => (some (r.takeWhile (· ≠ '/')), r.dropWhile (· ≠ '/'))
  | r => (none, r)

def hostExcludes (c : Char) : Bool := "\x00\t\n\r #/<>?@\\^|".toList.contains c

def endsHost : List Char → Bool
  | [] => true
  | ':' :: ds => match Decimal.readDigits 0 ds with
    | some n => n < UInt16.size
    | none => false
  | _ => false

def afterLastAt (cs : List Char) : List Char := (cs.reverse.takeWhile (· ≠ '@')).reverse

def splitHost? : List Char → Option (List Char × List Char)
  | '[' :: r =>
    let (inside, rest) := cutAt ']' r
    if inside.isEmpty || inside.length = r.length then none
    else if inside.all fun c => (Hex.digit? c).isSome || c = ':' || c = '.' then some (inside, rest)
    else none
  | cs =>
    let name := cs.takeWhile (· ≠ ':')
    if name.any fun c => hostExcludes c || c = '[' || c = ']' then none
    else some (name, cs.drop name.length)

def host? (a : List Char) : Option String := do
  let place := afterLastAt a
  let (name, rest) ← splitHost? place
  if !endsHost rest || name.isEmpty && (place.length < a.length || !rest.isEmpty) then none
  else some (String.ofList name)

def parameters (query : List Char) : List (String × String) :=
  (query.splitOn '&').map fun p =>
    let (k, v) := cutAt '=' p
    (String.ofList k, String.ofList v)

def parameter? (query : List Char) (name : String) : Option String :=
  ((parameters query).reverse.find? fun p => p.1 = name).map (·.2)

def isDatabase (s : String) : Bool := (Decimal.int64? s).isSome

def protocolKnown (query : List Char) : Bool :=
  match parameter? query "protocol" with
  | some p => p ∈ ["2", "resp2", "3", "resp3"]
  | none => true

def socket? (place : Option (List Char)) (path query : List Char) : Option Endpoint := do
  let host ← match place with
    | some a => host? a
    | none => some ""
  let database := (parameter? query "db").getD "0"
  if path.head? = some '/' && (host = "" || host = "localhost") && isDatabase database
      && protocolKnown query then
    some (socket (String.ofList path))
  else none

def trimSlashes (cs : List Char) : List Char :=
  ((cs.dropWhile (· = '/')).reverse.dropWhile (· = '/')).reverse

def server? (place : Option (List Char)) (path query : List Char) : Option Endpoint := do
  let name ← host? (← place)
  let database := trimSlashes path
  if name ≠ "" && (database.isEmpty || isDatabase (String.ofList database))
      && protocolKnown query then
    some (host name)
  else none

def parse? (uri : String) : Option Endpoint := do
  let (scheme, rest) ← scheme? (trim uri.toList)
  let (rest, _) := cutAt '#' rest
  let (rest, query) := cutAt '?' rest
  let (place, path) := authority rest
  match scheme with
  | "unix" | "redis+unix" => socket? place path query
  | "redis" => server? place path query
  | _ => none

end Endpoint

inductive Greeting where
  | accepted
  | silent
  | refused (reason : String)
  deriving DecidableEq, Repr

def Endpoint.unattended : Endpoint → Greeting
  | socket _ => .refused "No such file or directory (os error 2)"
  | host _ => .refused "Connection refused (os error 111)"

def address (uri : String) : Except Error Endpoint :=
  if uri.isEmpty then .error (.missingConfig "Redis broker requires URI")
  else match Endpoint.parse? uri with
    | some e => .ok e
    | none => .error (.transport ("redis: failed to open client for URI " ++ uri ++ ": no address"))

/-- The first connection has to stand within the time of one command. -/
def greet (uri : String) : Greeting → Except Error Unit
  | .accepted => .ok ()
  | .silent => .error (.transportRetryable
      ("redis: no connection to " ++ uri ++ " within " ++ commandTimeout.text))
  | .refused reason =>
    .error (.transportRetryable ("redis: failed to connect to " ++ uri ++ ": " ++ reason))

def connectUnattended (uri : String) : Except Error Unit := do
  greet uri (← address uri).unattended

end BrokeredCalls.Redis
