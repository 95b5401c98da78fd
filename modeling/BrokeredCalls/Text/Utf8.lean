/-!
Byte strings and their reading as UTF-8. `Utf8.decodeLossy` reads any bytes: well-formed sequences
become characters and every maximal ill-formed subpart becomes one replacement character.
`Utf8.decode?` accepts exactly the bytes that the lossy reading does not change.
-/

namespace BrokeredCalls

abbrev Bytes := List UInt8

namespace Utf8

def encode (s : String) : Bytes := s.toList.flatMap String.utf8EncodeChar

theorem encode_injective {s t : String} (h : encode s = encode t) : s = t := by
  have h' : s.toList.utf8Encode = t.toList.utf8Encode := congrArg List.toByteArray h
  rw [← String.toByteArray_inj, ← String.ofList_toList (s := s), ← String.ofList_toList (s := t),
    String.toByteArray_ofList, String.toByteArray_ofList, h']

def replacement : Char := '\uFFFD'

/-- Where a reader stands: between characters, or inside one whose next byte must lie in `low..high`
and be followed by `more` further bytes. `bits` holds what was read of the code point. -/
inductive Reader where
  | between
  | inside (bits : Nat) (low high : UInt8) (more : Nat)
  deriving DecidableEq, Repr

def Reader.ofLead (b : UInt8) : Option Reader :=
  if 0xC2 ≤ b ∧ b ≤ 0xDF then some (.inside (b.toNat - 0xC0) 0x80 0xBF 0)
  else if b = 0xE0 then some (.inside 0 0xA0 0xBF 1)
  else if b = 0xED then some (.inside 0xD 0x80 0x9F 1)
  else if 0xE1 ≤ b ∧ b ≤ 0xEF then some (.inside (b.toNat - 0xE0) 0x80 0xBF 1)
  else if b = 0xF0 then some (.inside 0 0x90 0xBF 2)
  else if b = 0xF4 then some (.inside 4 0x80 0x8F 2)
  else if 0xF1 ≤ b ∧ b ≤ 0xF3 then some (.inside (b.toNat - 0xF0) 0x80 0xBF 2)
  else none

def start (b : UInt8) : List Char × Reader :=
  if b < 0x80 then ([Char.ofNat b.toNat], .between)
  else match Reader.ofLead b with
    | some r => ([], r)
    | none => ([replacement], .between)

/-- Reads one byte. A byte that does not continue the open character ends it as ill-formed and is
itself read afresh. -/
def Reader.feed : Reader → UInt8 → List Char × Reader
  | .between, b => start b
  | .inside bits low high more, b =>
    if low ≤ b ∧ b ≤ high then
      let bits := bits * 64 + (b.toNat - 0x80)
      match more with
      | 0 => ([Char.ofNat bits], .between)
      | more + 1 => ([], .inside bits 0x80 0xBF more)
    else
      let (out, r) := start b
      (replacement :: out, r)

def Reader.finish : Reader → List Char
  | .between => []
  | .inside .. => [replacement]

def Reader.run : Reader → Bytes → List Char
  | r, [] => r.finish
  | r, b :: bs => (r.feed b).1 ++ (r.feed b).2.run bs

def decodeLossy (bs : Bytes) : String := String.ofList (Reader.between.run bs)

def decode? (bs : Bytes) : Option String :=
  let s := decodeLossy bs
  if encode s = bs then some s else none

end Utf8

def Bytes.compare : Bytes → Bytes → Ordering
  | [], [] => .eq
  | [], _ :: _ => .lt
  | _ :: _, [] => .gt
  | a :: as, b :: bs => if a < b then .lt else if b < a then .gt else Bytes.compare as bs

theorem Bytes.compare_eq_iff {a b : Bytes} : Bytes.compare a b = .eq ↔ a = b := by
  induction a generalizing b with
  | nil => cases b <;> simp [Bytes.compare]
  | cons x xs ih =>
    cases b with
    | nil => simp [Bytes.compare]
    | cons y ys =>
      by_cases h : x < y
      · simp [Bytes.compare, h, UInt8.ne_of_lt h]
      · by_cases h' : y < x
        · simp [Bytes.compare, h, h', (UInt8.ne_of_lt h').symm]
        · have : x = y := UInt8.le_antisymm (UInt8.not_lt.mp h') (UInt8.not_lt.mp h)
          simp [Bytes.compare, this, ih]

theorem Bytes.compare_swap (a b : Bytes) : (Bytes.compare a b).swap = Bytes.compare b a := by
  induction a generalizing b with
  | nil => cases b <;> rfl
  | cons x xs ih =>
    cases b with
    | nil => rfl
    | cons y ys =>
      by_cases h : x < y
      · have h' : ¬ y < x := fun h' => UInt8.lt_irrefl _ (UInt8.lt_trans h h')
        simp [Bytes.compare, h, h']
      · by_cases h' : y < x
        · simp [Bytes.compare, h, h']
        · simp [Bytes.compare, h, h', ih]

theorem Bytes.compare_trans {a b c : Bytes} (h : Bytes.compare a b = .lt)
    (k : Bytes.compare b c = .lt) : Bytes.compare a c = .lt := by
  induction a generalizing b c with
  | nil => cases b <;> cases c <;> simp_all [Bytes.compare]
  | cons x xs ih =>
    cases b with
    | nil => simp [Bytes.compare] at h
    | cons y ys =>
      cases c with
      | nil => simp [Bytes.compare] at k
      | cons z zs =>
        simp only [Bytes.compare, UInt8.lt_iff_toNat_lt] at *
        grind

def Utf8.ascending (names : List String) : List String :=
  names.mergeSort fun a b => Bytes.compare (Utf8.encode a) (Utf8.encode b) != .gt

end BrokeredCalls
