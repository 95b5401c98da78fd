import BrokeredCalls.Number.Decimal
import BrokeredCalls.Redis.Value

/-!
Reading answers as what the commands promise. Servers of different age spell the same thing
differently: a number may come as text, a text as a status, a list of one as the thing itself.
-/

namespace BrokeredCalls.Redis

abbrev Reading (α : Type) := Value → Except Failure α

namespace Reading

def mismatch {α : Type} (v : Value) : Except Failure α := .error (.shape v.shown)

def parsed {α : Type} (v : Value) : Option α → Except Failure α
  | some a => .ok a
  | none => mismatch v

def ofText {α : Type} (read? : String → Option α) (ofInt : Int → α) : Reading α
  | .int n => .ok (ofInt n)
  | .status s => parsed (.status s) (read? s)
  | .bulk b => match Utf8.decode? b with
    | some s => parsed (.bulk b) (read? s)
    | none => .error .notText
  | v => mismatch v

def int : Reading Int := ofText (fun s => (Decimal.int64? s).map (·.toInt)) id

/-- A count; a negative number wraps around 64 bits. -/
def nat : Reading Nat := ofText Decimal.nat64? fun n => (n % UInt64.size).toNat

def byte : Reading UInt8 :=
  ofText (fun s => do
    let n ← Decimal.nat64? s
    if n < 256 then some (UInt8.ofNat n) else none) fun n => UInt8.ofInt n

def text : Reading String
  | .bulk b => match Utf8.decode? b with
    | some s => .ok s
    | none => .error .notText
  | .status s => .ok s
  | .int n => .ok (toString n)
  | v => mismatch v

def option {α : Type} (read : Reading α) : Reading (Option α)
  | .nil => .ok none
  | v => (read v).map some

def items {α : Type} (read : Reading α) : List Value → Except Failure (List α)
  | [] => .ok []
  | v :: vs => do return (← read v) :: (← items read vs)

def bytes : Reading Bytes
  | .bulk b => .ok b
  | .array vs => items byte vs
  | .nil => .ok []
  | v => mismatch v

def list {α : Type} (read : Reading α) : Reading (List α)
  | .array vs => items read vs
  | .nil => .ok []
  | .bulk b => match read (.bulk b) with
    | .ok a => .ok [a]
    | .error _ => mismatch (.bulk b)
  | v => mismatch v

/-- A later value of a key takes the place of the earlier one. -/
def setPair {α : Type} (key : String) (a : α) : List (String × α) → List (String × α)
  | [] => [(key, a)]
  | (k, b) :: rest => if k = key then (key, a) :: rest else (k, b) :: setPair key a rest

def pairs {α : Type} (read : Reading α) (acc : List (String × α)) :
    List Value → Except Failure (List (String × α))
  | k :: v :: rest => do
    let key ← text k
    let a ← read v
    pairs read (setPair key a acc) rest
  | _ => .ok acc

def map {α : Type} (read : Reading α) : Reading (List (String × α))
  | .nil => .ok []
  | .array vs => if vs.length % 2 = 0 then pairs read [] vs else mismatch (.array vs)
  | v => mismatch v

def pair {α β : Type} (first : Reading α) (second : Reading β) : Reading (α × β)
  | .array [a, b] => do return (← first a, ← second b)
  | v => mismatch v

def any : Reading Value := .ok

def nothing : Reading Unit := fun _ => .ok ()

end Reading
end BrokeredCalls.Redis
