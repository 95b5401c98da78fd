import BrokeredCalls.Duration
import BrokeredCalls.Number.Shortest
import BrokeredCalls.Text.Utf8

namespace BrokeredCalls.Redis

abbrev Field := String × Bytes

inductive Command where
  | addEntry (stream : String) (maxLength : Option Nat) (fields : List Field)
  | exists (key : String)
  | streamLength (stream : String)
  | groups (stream : String)
  | createGroup (stream group : String)
  | readGroup (group consumer : String) (count blockMillis : Nat) (streams : List String)
  | acknowledge (stream group : String) (ids : List String)
  | pushBack (list : String) (value : Bytes)
  | expire (key : String) (millis : Nat)
  | popFront (list : String) (seconds : Binary)
  | setField (key field : String) (value : Bytes)
  | fieldNames (key : String)
  | getField (key field : String)
  | deleteField (key field : String)
  | begin
  | commit
  deriving DecidableEq, Repr

def commandTimeout : Duration := .ofSeconds 5

namespace Command

def words (ws : List String) : List Bytes := ws.map Utf8.encode

def secondsText (s : Binary) : String := (NumberLayout.pointed "nan" "inf").text Binary.double s

def args : Command → List Bytes
  | addEntry stream maxLength fields =>
    let bound := match maxLength with
      | some n => ["MAXLEN", toString n]
      | none => []
    words (["XADD", stream] ++ bound ++ ["*"])
      ++ fields.flatMap fun (name, value) => [Utf8.encode name, value]
  | .exists key => words ["EXISTS", key]
  | streamLength stream => words ["XLEN", stream]
  | groups stream => words ["XINFO", "GROUPS", stream]
  | createGroup stream group => words ["XGROUP", "CREATE", stream, group, "$"]
  | readGroup group consumer count block streams =>
    words (["XREADGROUP", "GROUP", group, consumer, "COUNT", toString count, "BLOCK",
      toString block, "STREAMS"] ++ streams ++ streams.map fun _ => ">")
  | acknowledge stream group ids => words (["XACK", stream, group] ++ ids)
  | pushBack list value => words ["RPUSH", list] ++ [value]
  | expire key millis => words ["PEXPIRE", key, toString millis]
  | popFront list seconds => words ["BLPOP", list, secondsText seconds]
  | setField key field value => words ["HSET", key, field] ++ [value]
  | fieldNames key => words ["HKEYS", key]
  | getField key field => words ["HGET", key, field]
  | deleteField key field => words ["HDEL", key, field]
  | begin => words ["MULTI"]
  | commit => words ["EXEC"]

end Command
end BrokeredCalls.Redis
