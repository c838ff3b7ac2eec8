/-!
# One connection, as the peer sees it

A connection has a number for its whole life, a direction, and the last messages of each direction.
-/

set_option autoImplicit false

namespace PeerScript.Peer

/-- The number of a connection.  Numbers count from one and both directions share them. -/
abbrev ConnectionId := Nat

/-- The text of a connection's number. -/
def showId (id : ConnectionId) : String := "#" ++ toString id

/-- Who opened a connection. -/
inductive Direction where
  /-- accepted by the server; the remote sends scripts -/
  | inbound
  /-- opened from this side; scripts are sent to the remote -/
  | outbound
  deriving DecidableEq, Repr, Inhabited

/-- A history with one more message, of which only the last `limit` are kept. -/
def remember (limit : Nat) (history : List String) (text : String) : List String :=
  let history := history ++ [text]
  history.drop (history.length - limit)

/-- A connection and the messages exchanged on it, oldest first. -/
structure Client where
  id : ConnectionId
  direction : Direction
  sent : List String
  received : List String
  historyLimit : Nat
  deriving DecidableEq, Repr, Inhabited

namespace Client

/-- A new connection. -/
def new (id : ConnectionId) (direction : Direction) (historyLimit : Nat) : Client :=
  ⟨id, direction, [], [], historyLimit⟩

/-- The message that came last. -/
def newest (c : Client) : Option String := c.received.getLast?

/-- Keeps a message that was sent. -/
def noteSent (c : Client) (text : String) : Client :=
  { c with sent := remember c.historyLimit c.sent text }

/-- Keeps a message that came. -/
def noteReceived (c : Client) (text : String) : Client :=
  { c with received := remember c.historyLimit c.received text }

end Client

end PeerScript.Peer
