import BrokeredCalls.Error
import BrokeredCalls.Text.Hex

/-!
Replies and their frames: a tag byte, then the payload of a success or the UTF-8 text of a failure.
Error texts are read leniently, so that every tagged frame is a reply.
-/

namespace BrokeredCalls

inductive Reply where
  | ok (payload : Bytes)
  | error (text : String)
  deriving DecidableEq, Repr

namespace Reply

def okTag : UInt8 := 0x2B
def errorTag : UInt8 := 0x2D

def encode : Reply → Bytes
  | ok p => okTag :: p
  | error t => errorTag :: Utf8.encode t

def byteText (b : UInt8) : String := "0x" ++ Hex.encode [b]

def decode : Bytes → Except Error Reply
  | [] => .error (.transport "empty reply frame")
  | tag :: body =>
    if tag = okTag then .ok (ok body)
    else if tag = errorTag then .ok (error (Utf8.decodeLossy body))
    else .error (.transport ("unknown reply tag " ++ byteText tag))

def ofResult : Except Error Bytes → Reply
  | .ok p => ok p
  | .error e => error e.message

def toResult : Reply → Except Error Bytes
  | ok p => .ok p
  | error t => .error (.remote t)

end Reply
end BrokeredCalls
