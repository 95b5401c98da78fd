import BrokeredCalls.Text.Hex
import BrokeredCalls.Text.Unprintable

/-! Text between double quotes, as messages show it: what cannot be seen is spelled out. -/

namespace BrokeredCalls.Quoted

def escape (c : Char) : List Char :=
  if c = '"' then ['\\', '"']
  else if c = '\\' then ['\\', '\\']
  else if c = '\n' then ['\\', 'n']
  else if c = '\t' then ['\\', 't']
  else if c = '\r' then ['\\', 'r']
  else if c = '\x00' then ['\\', '0']
  else if Unprintable.contains c then
    ['\\', 'u', '\x7b'] ++ (Hex.ofNat c.toNat).toList ++ ['\x7d']
  else [c]

def encode (s : String) : String := "\"" ++ String.ofList (s.toList.flatMap escape) ++ "\""

end BrokeredCalls.Quoted
