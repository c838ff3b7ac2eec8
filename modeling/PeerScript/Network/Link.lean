import PeerScript.Peer.Client
import PeerScript.Wire.Frame

/-!
# Links

A link joins two ends.  What is written at one end arrives at the other, byte by byte and in order;
an end that is closed is noticed at the other end when all that was written has been read.
-/

set_option autoImplicit false

namespace PeerScript.Network

open Peer (ConnectionId)
open Wire (Bytes)

/-- Who holds an end of a link. -/
inductive Party where
  /-- a connection of one of the servers -/
  | server (index : Nat) (id : ConnectionId)
  /-- a remote that answers each message with the next of some replies -/
  | scripted (replies : List Bytes)
  /-- somebody outside of the network -/
  | outside
  deriving DecidableEq, Repr, Inhabited

/-- One end of a link. -/
structure End where
  party : Party
  /-- what has arrived and was not yet read -/
  arrived : Bytes
  isOpen : Bool
  deriving DecidableEq, Repr, Inhabited

/-- The two sides of a link. -/
inductive Side where
  | opener
  | acceptor
  deriving DecidableEq, Repr, Inhabited

/-- The opposite side. -/
def Side.other : Side → Side
  | opener => acceptor
  | acceptor => opener

/-- Two ends that are joined. -/
structure Link where
  opener : End
  acceptor : End
  deriving DecidableEq, Repr, Inhabited

/-- What can be read at an end. -/
inductive Arrival where
  /-- a message, and what has arrived behind it -/
  | message (bytes rest : Bytes)
  /-- no message yet -/
  | pending
  /-- no message any more -/
  | ended (fault : Fault)

namespace Link

/-- A link between two parties, on which nothing has been written. -/
def between (opener acceptor : Party) : Link := ⟨⟨opener, [], true⟩, ⟨acceptor, [], true⟩⟩

/-- The end on one side. -/
def side (l : Link) : Side → End
  | .opener => l.opener
  | .acceptor => l.acceptor

/-- Changes the end on one side. -/
def modify (l : Link) (side : Side) (change : End → End) : Link :=
  match side with
  | .opener => { l with opener := change l.opener }
  | .acceptor => { l with acceptor := change l.acceptor }

/-- Writes at the end on one side. -/
def write (l : Link) (side : Side) (bytes : Bytes) : Link :=
  l.modify side.other fun e => { e with arrived := e.arrived ++ bytes }

/-- Closes the end on one side. -/
def close (l : Link) (side : Side) : Link := l.modify side fun e => { e with isOpen := false }

/-- Leaves only `rest` to be read at the end on one side. -/
def leave (l : Link) (side : Side) (rest : Bytes) : Link :=
  l.modify side fun e => { e with arrived := rest }

/-- What can be read at the end on one side.  A length that no message may have ends the reading,
and so does the other end when it is closed. -/
def arrival (l : Link) (side : Side) : Arrival :=
  match Wire.Frame.read (l.side side).arrived with
  | .ok (bytes, rest) => .message bytes rest
  | .error gap =>
      if gap.mayClose && (l.side side.other).isOpen then .pending else .ended gap.fault

end Link

end PeerScript.Network
