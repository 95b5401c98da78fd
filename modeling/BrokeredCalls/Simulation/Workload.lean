import BrokeredCalls.Handler
import BrokeredCalls.Json.Syntax
import BrokeredCalls.Number.Decimal

/-!
Sample services and the values they speak: a record of one whole number, any JSON value, or raw bytes.
-/

namespace BrokeredCalls.Simulation.Workload

def unreadable : Error := .serialization "the text is not a value of the expected kind"

def unwritable : Error := .serialization "the value has no text"

/-- A whole number without fraction, exponent or minus zero, within 64 bits. -/
def int64? : Json.Syntax → Option Int64
  | .number l => do
    let n ← l.int?
    if n ≤ Int64.maxValue.toInt then some (Int64.ofInt n) else none
  | _ => none

/-- The record with its one field `n`, as an object or as an array of one. Other fields are passed
over; a key must be text, and `n` may not come twice. -/
def record? : Json.Syntax → Option Int64
  | .array [v] => int64? v
  | .object members =>
    if members.any fun m => m.1.isNone then none
    else match members.filter fun m => m.1 = some "n" with
      | [(_, v)] => int64? v
      | _ => none
  | _ => none

def readRecord (bs : Bytes) : Except Error Int64 :=
  match (Json.Syntax.ofBytes? bs).bind record? with
  | some n => .ok n
  | none => .error unreadable

def writeRecord (n : Int64) : Bytes :=
  Utf8.encode (Json.object [("n", .ofInt n.toInt)]).render

def readValue (bs : Bytes) : Except Error Json :=
  match Json.ofBytes? bs with
  | some v => .ok v
  | none => .error unreadable

def writeValue (v : Json) : Bytes := Utf8.encode v.render

def noteRecord (n : Int64) : Json := .ofInt n.toInt

def double : Handler := .typed readRecord noteRecord .atOnce fun n =>
  let m := 2 * n.toInt
  if Int64.minValue.toInt ≤ m ∧ m ≤ Int64.maxValue.toInt then .ok (writeRecord (Int64.ofInt m))
  else .error (.handler "overflow")

def positive : Handler := .typed readRecord noteRecord .atOnce fun n =>
  if 0 < n then .ok (writeRecord n) else .error (.handler "n must be positive")

def ofValue (pace : Pace) (f : Json → Except Error Bytes) : Handler := .typed readValue id pace f

def echo : Handler := ofValue .atOnce fun v => .ok (writeValue v)
def slow (d : Duration) : Handler := ofValue (.after d) fun v => .ok (writeValue v)
def hang : Handler := ofValue .never fun v => .ok (writeValue v)
def badOutput : Handler := ofValue .atOnce fun _ => .error unwritable
def failing (e : Error) : Handler := ofValue .atOnce fun _ => .error e

def ofBytes (f : Bytes → Except Error Bytes) : Handler := .raw (fun bs => .string (Hex.encode bs)) f

def rawEcho : Handler := ofBytes .ok
def rawReverse : Handler := ofBytes fun bs => .ok bs.reverse
def rawConst (bs : Bytes) : Handler := ofBytes fun _ => .ok bs
def rawFailing (e : Error) : Handler := ofBytes fun _ => .error e

end BrokeredCalls.Simulation.Workload
