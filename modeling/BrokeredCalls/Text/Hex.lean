import BrokeredCalls.Text.Utf8

namespace BrokeredCalls.Hex

def digit (n : Nat) : Char := if n < 10 then Char.ofNat (48 + n) else Char.ofNat (87 + n)

def digit? (c : Char) : Option Nat :=
  if '0' ≤ c ∧ c ≤ '9' then some (c.toNat - 48)
  else if 'a' ≤ c ∧ c ≤ 'f' then some (c.toNat - 87)
  else if 'A' ≤ c ∧ c ≤ 'F' then some (c.toNat - 55)
  else none

def encode (bs : Bytes) : String :=
  String.ofList (bs.flatMap fun b => [digit (b.toNat / 16), digit (b.toNat % 16)])

def ofNat (n : Nat) : String := String.ofList (Nat.toDigits 16 n)

def decodeChars : List Char → Option Bytes
  | [] => some []
  | h :: l :: r => do
    let high ← digit? h
    let low ← digit? l
    let rest ← decodeChars r
    return UInt8.ofNat (high * 16 + low) :: rest
  | _ => none

def decode? (s : String) : Option Bytes := decodeChars s.toList

end BrokeredCalls.Hex
