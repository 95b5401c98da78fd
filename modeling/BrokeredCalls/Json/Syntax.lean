import BrokeredCalls.Json.Value

/-!
Reading JSON text. `Syntax.parse?` accepts the grammar alone and keeps repeated keys, spellings of
numbers and ill-formed escapes; `Syntax.value?` then admits what stands for a value: characters that
exist, numbers within range, less than 128 levels of nesting.
-/

namespace BrokeredCalls.Json

inductive Syntax where
  | null
  | bool (b : Bool)
  | number (l : Literal)
  /-- No text if some escape is half of a surrogate pair. -/
  | string (s : Option String)
  | array (items : List Syntax)
  | object (members : List (Option String × Syntax))
  deriving Repr, Inhabited

namespace Syntax

def isSpace (c : Char) : Bool := c = ' ' || c = '\n' || c = '\t' || c = '\r'

def skipSpace (cs : List Char) : List Char := cs.dropWhile isSpace

/-- A piece of a string: a character, or a 16-bit unit given by an escape. -/
inductive Piece where
  | char (c : Char)
  | unit (n : Nat)

def hex4? (a b c d : Char) : Option Nat := do
  return (((← Hex.digit? a) * 16 + (← Hex.digit? b)) * 16 + (← Hex.digit? c)) * 16
    + (← Hex.digit? d)

/-- The pieces up to the closing quote, in reverse, and what follows it. -/
def pieces (acc : List Piece) : List Char → Option (List Piece × List Char)
  | [] => none
  | '"' :: r => some (acc, r)
  | '\\' :: 'u' :: a :: b :: c :: d :: r =>
    match hex4? a b c d with
    | some n => pieces (.unit n :: acc) r
    | none => none
  | '\\' :: e :: r =>
    match e with
    | '"' => pieces (.char '"' :: acc) r
    | '\\' => pieces (.char '\\' :: acc) r
    | '/' => pieces (.char '/' :: acc) r
    | 'b' => pieces (.char '\x08' :: acc) r
    | 'f' => pieces (.char '\x0C' :: acc) r
    | 'n' => pieces (.char '\n' :: acc) r
    | 'r' => pieces (.char '\r' :: acc) r
    | 't' => pieces (.char '\t' :: acc) r
    | _ => none
  | '\\' :: [] => none
  | c :: r => if c.toNat < 0x20 then none else pieces (.char c :: acc) r

def isHigh (n : Nat) : Bool := 0xD800 ≤ n && n ≤ 0xDBFF
def isLow (n : Nat) : Bool := 0xDC00 ≤ n && n ≤ 0xDFFF

/-- Joins surrogate pairs; a half that stands alone makes the string no text. -/
def join (acc : List Char) : List Piece → Option (List Char)
  | [] => some acc.reverse
  | .char c :: r => join (c :: acc) r
  | .unit n :: r =>
    if isLow n then none
    else if isHigh n then
      match r with
      | .unit m :: r =>
        if isLow m then
          join (Char.ofNat (0x10000 + (n - 0xD800) * 0x400 + (m - 0xDC00)) :: acc) r
        else none
      | _ => none
    else join (Char.ofNat n :: acc) r

def readString (cs : List Char) : Option (Option String × List Char) := do
  let (ps, r) ← pieces [] cs
  return ((join [] ps.reverse).map String.ofList, r)

def readDigits (cs : List Char) : List Char × List Char :=
  (cs.takeWhile Decimal.isDigit, cs.dropWhile Decimal.isDigit)

/-- No digit may follow a leading zero. -/
def readWhole (cs : List Char) : Option (List Char × List Char) :=
  match readDigits cs with
  | ([], _) => none
  | ('0' :: _ :: _, _) => none
  | ds => some ds

def readFraction : List Char → Option (List Char × List Char)
  | '.' :: r =>
    match readDigits r with
    | ([], _) => none
    | ds => some ds
  | r => some ([], r)

def readSign : List Char → Bool × List Char
  | '-' :: r => (true, r)
  | '+' :: r => (false, r)
  | r => (false, r)

def readExponent (cs : List Char) : Option (Option (Bool × List Char) × List Char) :=
  match cs with
  | c :: r =>
    if c = 'e' ∨ c = 'E' then
      let (negative, r) := readSign r
      match readDigits r with
      | ([], _) => none
      | (ds, r) => some (some (negative, ds), r)
    else some (none, cs)
  | [] => some (none, [])

def readNumber (negative : Bool) (cs : List Char) : Option (Literal × List Char) := do
  let (whole, r) ← readWhole cs
  let (fraction, r) ← readFraction r
  let (exponent, r) ← readExponent r
  return (⟨negative, whole, fraction, exponent⟩, r)

mutual

def readValue : (fuel : Nat) → List Char → Option (Syntax × List Char)
  | 0, _ => none
  | fuel + 1, cs =>
    match skipSpace cs with
    | 'n' :: 'u' :: 'l' :: 'l' :: r => some (null, r)
    | 't' :: 'r' :: 'u' :: 'e' :: r => some (bool true, r)
    | 'f' :: 'a' :: 'l' :: 's' :: 'e' :: r => some (bool false, r)
    | '"' :: r => (readString r).map fun (s, r) => (string s, r)
    | '[' :: r =>
      match skipSpace r with
      | ']' :: r => some (array [], r)
      | r => readItems fuel [] r
    | '\x7b' :: r =>
      match skipSpace r with
      | '\x7d' :: r => some (object [], r)
      | r => readMembers fuel [] r
    | '-' :: r => (readNumber true r).map fun (l, r) => (number l, r)
    | r => (readNumber false r).map fun (l, r) => (number l, r)

def readItems : (fuel : Nat) → List Syntax → List Char → Option (Syntax × List Char)
  | 0, _, _ => none
  | fuel + 1, acc, cs =>
    match readValue fuel cs with
    | none => none
    | some (v, r) =>
      match skipSpace r with
      | ',' :: r => readItems fuel (v :: acc) r
      | ']' :: r => some (array (v :: acc).reverse, r)
      | _ => none

def readMembers : (fuel : Nat) → List (Option String × Syntax) → List Char →
    Option (Syntax × List Char)
  | 0, _, _ => none
  | fuel + 1, acc, cs =>
    match skipSpace cs with
    | '"' :: r =>
      match readString r with
      | none => none
      | some (key, r) =>
        match skipSpace r with
        | ':' :: r =>
          match readValue fuel r with
          | none => none
          | some (v, r) =>
            match skipSpace r with
            | ',' :: r => readMembers fuel ((key, v) :: acc) r
            | '\x7d' :: r => some (object ((key, v) :: acc).reverse, r)
            | _ => none
        | _ => none
    | _ => none

end

/-- The whole text as one value; each step takes a character or opens what the next one does. -/
def parse? (cs : List Char) : Option Syntax :=
  match readValue (2 * cs.length + 2) cs with
  | some (v, r) => if (skipSpace r).isEmpty then some v else none
  | none => none

def ofBytes? (bs : Bytes) : Option Syntax := do parse? (← Utf8.decode? bs).toList

def nestingLimit : Nat := 128

mutual

/-- The value, if at most `depth` levels may still be opened. -/
def toValue? (depth : Nat) : Syntax → Option Json
  | null => some .null
  | bool b => some (.bool b)
  | number l => l.number?.map .number
  | string s => s.map .string
  | array items =>
    match depth with
    | 0 => none
    | depth + 1 => (toItems? depth items).map .array
  | object members =>
    match depth with
    | 0 => none
    | depth + 1 => (toMembers? depth members).map ofMembers

def toItems? (depth : Nat) : List Syntax → Option (List Json)
  | [] => some []
  | v :: vs => do return (← toValue? depth v) :: (← toItems? depth vs)

def toMembers? (depth : Nat) : List (Option String × Syntax) → Option (List (String × Json))
  | [] => some []
  | (k, v) :: rest => do return (← k, ← toValue? depth v) :: (← toMembers? depth rest)

end

def value? (v : Syntax) : Option Json := toValue? (nestingLimit - 1) v

end Syntax

def parse? (s : String) : Option Json := do (← Syntax.parse? s.toList).value?

def ofBytes? (bs : Bytes) : Option Json := do (← Syntax.ofBytes? bs).value?

end BrokeredCalls.Json
