import BrokeredCalls.Broker.Call
import BrokeredCalls.Redis.Entry

/-!
A broker on a Redis server, as a program over its connections. One connection is shared by all calls
that answer at once; a blocking read has one of its own, kept from read to read while reads go well; a
blocking pop opens one each time. Every command has a deadline, and what a late answer says is never
looked at.
-/

namespace BrokeredCalls.Redis

abbrev Connection := Nat

inductive Outcome where
  | answers (vs : List Value)
  | dropped
  | late

inductive Opening where
  | opened (c : Connection)
  | failed (f : Failure)
  | late

namespace Wire

inductive Request where
  | connect (limit : Duration)
  | exchange (on : Connection) (commands : List Command) (limit : Duration)

abbrev interface : Interface where
  Request := Request
  Answer
    | .connect _ => Opening
    | .exchange .. => Outcome

end Wire

structure Session where
  name : String
  shared : Connection
  /-- The connection of blocking reads, unless the next one has to open it. -/
  reading : Option Connection
  closed : Bool
  deriving DecidableEq, Repr

namespace Session

def new (name : String) (shared : Connection) : Session := ⟨name, shared, none, false⟩

/-- How much later than its server a client gives up a command that blocks. -/
def blockGrace : Duration := .ofSeconds 2

abbrev Step (α : Type) := ExceptT Error (StateT Session (Program Wire.interface)) α

def send (r : Wire.Request) : Step (Wire.interface.Answer r) :=
  ExceptT.lift (StateT.lift (Program.request (I := Wire.interface) r))

def failed (name what : String) (f : Failure) : Error :=
  let text := name ++ ": " ++ what ++ " failed: " ++ f.message
  if f.isRetryable then .transportRetryable text else .transport text

def late (name what : String) (limit : Duration) : Error :=
  .transportRetryable (name ++ ": " ++ what ++ " did not return within " ++ limit.text)

def orFail {α : Type} (what : String) : Except Failure α → Step α
  | .ok a => return a
  | .error f => do throw (failed (← get).name what f)

def single (vs : List Value) : Except Failure Value :=
  match vs with
  | v :: _ => match v.signalled? with
    | some e => .error (.server e)
    | none => .ok v
  | [] => .error .dropped

/-- The results of a transaction, which its last answer holds. -/
def results (vs : List Value) : Except Failure Value :=
  match vs.getLast? with
  | some .nil => .ok .nil
  | some (.array items) => .ok (.array items)
  | _ => .error .transaction

def exchange (what : String) (on : Connection) (commands : List Command) (limit : Duration)
    (look : List Value → Except Failure Value) : Step (Except Failure Value) := do
  match ← send (.exchange on commands limit) with
  | .answers vs => return look vs
  | .dropped => return .error .dropped
  | .late => throw (late (← get).name what limit)

def checkOpen : Step Unit := do
  let s ← get
  if s.closed then throw (.brokerClosed s.name)

def tryCommand {α : Type} (what : String) (c : Command) (read : Reading α) :
    Step (Except Failure α) := do
  checkOpen
  let answer ← exchange what (← get).shared [c] commandTimeout single
  return answer.bind read

def command {α : Type} (what : String) (c : Command) (read : Reading α) : Step α := do
  orFail what (← tryCommand what c read)

def transaction {α : Type} (what : String) (cs : List Command) (read : Reading α) : Step α := do
  checkOpen
  let answer ← exchange what (← get).shared ([.begin] ++ cs ++ [.commit]) commandTimeout results
  orFail what (answer.bind read)

def connect : Step Connection := do
  let what := "open dedicated connection"
  match ← send (.connect commandTimeout) with
  | .opened c => return c
  | .failed f => throw (failed (← get).name what f)
  | .late => throw (late (← get).name what commandTimeout)

def contains (text part : List Char) : Bool :=
  match text with
  | [] => part.isEmpty
  | c :: cs => part.isPrefixOf (c :: cs) || contains cs part

/-- Servers say in two ways that a stream does not exist. -/
def saysNoSuchKey (f : Failure) : Bool :=
  let text := f.message.toList.map Char.toLower
  contains text "no such key".toList || contains text "requires the key to exist".toList

def firstQuoted (text : String) : Option String :=
  match (text.toList.dropWhile (· ≠ '\'')).drop 1 with
  | [] => none
  | rest =>
    let word := rest.takeWhile (· ≠ '\'')
    if word.length < rest.length then some (String.ofList word) else none

def missingQueue? : Failure → Option String
  | .server e => if e.hasOwnCode "NOGROUP" then firstQuoted e.message else none
  | _ => none

/-- The name in one description of a group; the numbers beside it have to be numbers. -/
def groupName (fields : List (String × Value)) : Except Failure String := do
  let get {α : Type} (read : Reading α) (default : α) (name : String) : Except Failure α :=
    match Entry.lookUp name fields with
    | some v => read v
    | none => .ok default
  let name ← get Reading.text "" "name"
  let _ ← get Reading.nat 0 "consumers"
  let _ ← get Reading.nat 0 "pending"
  let _ ← get Reading.text "" "last-delivered-id"
  let _ ← get (Reading.option Reading.nat) none "entries-read"
  let _ ← get (Reading.option Reading.nat) none "lag"
  return name

def groupNames : Reading (List String) := fun v => do
  (← Reading.list (Reading.map Reading.any) v).mapM groupName

def listGroups (queue : String) : Step (List String) := do
  let what := "XINFO GROUPS " ++ queue
  match ← tryCommand what (.groups queue) groupNames with
  | .ok names => return names
  | .error f =>
    if saysNoSuchKey f then throw (.missingQueue queue) else orFail what (.error f)

/-- A group that exists already is as good as a new one. -/
def createGroup (queue group : String) : Step Unit := do
  let what := "XGROUP CREATE " ++ queue ++ " " ++ group
  match ← tryCommand what (.createGroup queue group) Reading.nothing with
  | .ok () => return ()
  | .error f =>
    let known := match f with
      | .server e => e.hasOwnCode "BUSYGROUP"
      | _ => false
    if known then return ()
    else if saysNoSuchKey f then throw (.missingQueue queue)
    else orFail what (.error f)

def readingConnection : Step Connection := do
  match (← get).reading with
  | some c => return c
  | none => do
    let c ← connect
    modify fun s => { s with reading := some c }
    return c

def forgetReading : Step Unit := modify fun s => { s with reading := none }

/-- A read that fails in any way but a missing queue gives its connection up. -/
def readGroup (group consumer : String) (queues : List String) (count : Nat) (block : Duration) :
    Step (List Delivery) := do
  checkOpen
  let c ← readingConnection
  let limit := block + blockGrace
  let sent := Command.readGroup group consumer (max count 1) (max block.wholeMillis 1) queues
  match ← send (.exchange c [sent] limit) with
  | .late => do
    forgetReading
    throw (late (← get).name "XREADGROUP" limit)
  | outcome =>
    let answer := match outcome with
      | .answers vs => (single vs).bind Entry.batch
      | _ => .error .dropped
    match answer with
    | .ok batch => return batch
    | .error f => match missingQueue? f with
      | some queue => throw (.missingQueue queue)
      | none => do
        forgetReading
        orFail "XREADGROUP" (.error f)

/-- A server waits for ever when told to wait for no time at all. -/
def popSeconds (timeout : Duration) : Binary :=
  if timeout < .ofMillis 1 then Duration.toSeconds (.ofMillis 1) else timeout.toSeconds

/-- Nobody pushed in time, whether the server says so or says nothing. -/
def popReply (key : String) (timeout : Duration) : Step (Option Bytes) := do
  checkOpen
  let c ← connect
  match ← send (.exchange c [.popFront key (popSeconds timeout)] (timeout + blockGrace)) with
  | .late => return none
  | .dropped => orFail ("BLPOP " ++ key) (.error .dropped)
  | .answers vs => do
    let read := Reading.option (Reading.pair Reading.text Reading.bytes)
    let popped ← orFail ("BLPOP " ++ key) ((single vs).bind read)
    return popped.map (·.2)

def takenField : Reading (Option Bytes) := fun v => do
  match v.signalled? with
  | some e => .error (.server e)
  | none =>
    let taken ← Reading.pair (Reading.option Reading.bytes) Reading.int v
    return taken.1

def close : Step Unit := modify fun s => { s with closed := true, reading := none }

def perform : (c : Broker.Call) → Step c.Value
  | .append queue e maxLength =>
    command ("XADD " ++ queue) (.addEntry queue (some maxLength) (Entry.fields e)) Reading.text
  | .appendPlaceholder queue =>
    command ("XADD placeholder " ++ queue) (.addEntry queue none Entry.placeholderFields)
      Reading.text
  | .queueExists queue => do
    return 0 < (← command ("EXISTS " ++ queue) (.exists queue) Reading.int)
  | .queueLength queue => command ("XLEN " ++ queue) (.streamLength queue) Reading.nat
  | .listGroups queue => listGroups queue
  | .createGroup queue group => createGroup queue group
  | .readGroup group consumer queues count block => readGroup group consumer queues count block
  | .acknowledge queue group ids => do
    if ids.isEmpty then return ()
    let _ ← command ("XACK " ++ queue) (.acknowledge queue group ids) Reading.int
    return ()
  | .pushReply key value ttl =>
    transaction ("RPUSH " ++ key)
      [.pushBack key value, .expire key (max ttl.wholeMillis 1)] Reading.nothing
  | .popReply key timeout => popReply key timeout
  | .hashSet key field value => do
    let _ ← command ("HSET " ++ key ++ " " ++ field) (.setField key field value) Reading.int
    return ()
  | .hashFields key => command ("HKEYS " ++ key) (.fieldNames key) (Reading.list Reading.text)
  | .hashTake key field =>
    transaction ("HGET/HDEL " ++ key ++ " " ++ field) [.getField key field, .deleteField key field]
      takenField
  | .hashDelete key field => do
    let _ ← command ("HDEL " ++ key ++ " " ++ field) (.deleteField key field) Reading.int
    return ()
  | .close => close

def serve (c : Broker.Call) : StateT Session (Program Wire.interface) (Except Error c.Value) :=
  (perform c).run

def carryOut {α : Type} (s : Session) (p : Program Broker.interface α) :
    Program Wire.interface (α × Session) :=
  (p.run serve).run s

end Session
end BrokeredCalls.Redis
