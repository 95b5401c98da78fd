import BrokeredCalls.Envelope
import BrokeredCalls.Redis.Command
import BrokeredCalls.Redis.Reading

/-!
Envelopes as entries of a stream. The payload is one field, the fire time another, and a field of its
own marks a placeholder. An entry that cannot be read comes back as a placeholder, so that it is
acknowledged like the rest of its batch and nothing else is done with it.
-/

namespace BrokeredCalls.Redis.Entry

def dataField : String := "data"
def timeField : String := "timeAt"
def placeholderField : String := "init"

def fields (e : Envelope) : List Field :=
  (dataField, e.payload) :: match e.fireAt with
    | some t => [(timeField, Utf8.encode (Decimal.ofInt64 t))]
    | none => []

def placeholderFields : List Field := [(placeholderField, Utf8.encode "1")]

def lookUp (name : String) (fields : List (String × Value)) : Option Value :=
  (fields.find? fun f => f.1 = name).map (·.2)

def field? {α : Type} (read : Reading α) (name : String) (fields : List (String × Value)) :
    Option α :=
  (lookUp name fields).bind fun v => (read v).toOption

/-- The envelope of an entry; none if its fire time is no number. -/
def envelope? (queue : String) (fields : List (String × Value)) : Option Envelope := do
  let payload := (field? Reading.bytes dataField fields).getD []
  match field? Reading.text timeField fields with
  | some text => return ⟨queue, payload, some (← Decimal.int64? text), none⟩
  | none => return ⟨queue, payload, none, none⟩

def delivery (queue : String) (id : String) (fields : List (String × Value)) : Delivery :=
  let envelope :=
    if (lookUp placeholderField fields).isSome then .placeholder queue
    else (envelope? queue fields).getD (.placeholder queue)
  ⟨queue, id, envelope.withEntryId id⟩

def batch : Reading (List Delivery) := fun v => do
  let entries := Reading.list (Reading.map (Reading.map Reading.any))
  let streams ← Reading.list (Reading.map entries) v
  return streams.flatten.flatMap fun (queue, rows) =>
    rows.flatten.map fun (id, fields) => delivery queue id fields

end BrokeredCalls.Redis.Entry
