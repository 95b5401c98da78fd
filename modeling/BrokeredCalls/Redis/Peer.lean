import BrokeredCalls.Redis.Session

/-!
A server that follows a script: whatever the command, it answers with the next line, and what it was
sent is kept.
-/

namespace BrokeredCalls.Redis

inductive Line where
  | answer (v : Value)
  | close
  | stall

structure Peer where
  script : List Line
  /-- Newest first. -/
  sent : List (Connection × Command)
  opened : Nat
  broken : List Connection

namespace Peer

def new : Peer := ⟨[], [], 1, []⟩

def unscripted : Value := .error ⟨"ERR", some "unscripted"⟩

def follow (p : Peer) (lines : List Line) : Peer := { p with script := lines, sent := [] }

def exchange (on : Connection) (answers : List Value) (stalled : Bool) :
    List Command → Peer → Outcome × Peer
  | [], p => (if stalled then .late else .answers answers.reverse, p)
  | c :: cs, p =>
    let p := { p with sent := (on, c) :: p.sent }
    match p.script with
    | [] => exchange on (unscripted :: answers) stalled cs p
    | .answer v :: rest => exchange on (v :: answers) stalled cs { p with script := rest }
    | .stall :: rest => exchange on (.nil :: answers) true cs { p with script := rest }
    | .close :: rest => (.dropped, { p with script := rest, broken := on :: p.broken })

/-- Nothing is sent on a connection that was dropped. -/
def serve : (r : Wire.Request) → StateM Peer (Wire.interface.Answer r)
  | .connect _ => fun p => (.opened p.opened, { p with opened := p.opened + 1 })
  | .exchange on commands _ => fun p =>
    if on ∈ p.broken then (.dropped, p) else exchange on [] false commands p

def run {α : Type} (p : Peer) (s : Session) (x : Program Broker.interface α) :
    (α × Session) × Peer :=
  ((s.carryOut x).run serve).run p

end Peer
end BrokeredCalls.Redis
