import PeerScript.Association
import PeerScript.Peer.Client
import PeerScript.Wire.Pending

/-!
# The table of connections

The table holds the live connections of a server in both directions, and which remote is entered.
What happens to connections is noted as events.  A connection leaves the table once, whoever removes
it first.
-/

set_option autoImplicit false

namespace PeerScript.Peer

open Wire (Pending Slot Outcome)

/-- The sending side of an outbound connection: the stream it writes to, and its slots. -/
structure Remote where
  link : Nat
  pending : Pending
  deriving Inhabited

/-- A live connection.  Only an outbound one has a remote. -/
structure Entry where
  client : Client
  remote : Option Remote
  deriving Inhabited

/-- What happens on the connections of a server. -/
inductive Event where
  | connected (id : ConnectionId) (direction : Direction)
  | disconnected (id : ConnectionId)
  /-- a script was received, run and answered -/
  | request (id : ConnectionId) (text : String)
  /-- a response was received -/
  | response (id : ConnectionId) (text : String)
  deriving DecidableEq, Repr

/-- The connections of a server. -/
structure Table where
  historyLimit : Nat
  /-- the number of the next connection -/
  nextId : ConnectionId
  /-- live connections, oldest first -/
  entries : List (ConnectionId × Entry)
  /-- the remote to which scripts are sent when no other one is named -/
  entered : Option ConnectionId
  /-- what has happened, in order -/
  events : List Event
  deriving Inhabited

namespace Table

/-- No connections. -/
def new (historyLimit : Nat) : Table := ⟨historyLimit, 1, [], none, []⟩

/-- The entry of a live connection. -/
def find? (t : Table) (id : ConnectionId) : Option Entry := t.entries.lookup id

/-- Notes an event. -/
def raise (t : Table) (event : Event) : Table := { t with events := t.events ++ [event] }

/-- Changes the entry of a connection, if it is live. -/
def update (t : Table) (id : ConnectionId) (change : Entry → Entry) : Table :=
  { t with entries := Association.update id change t.entries }

/-- One more connection. -/
def add (t : Table) (remote : Option Remote) : Table × ConnectionId :=
  let direction := if remote.isSome then Direction.outbound else .inbound
  let entry : Entry := ⟨.new t.nextId direction t.historyLimit, remote⟩
  let t' := { t with nextId := t.nextId + 1, entries := t.entries ++ [(t.nextId, entry)] }
  (t'.raise (.connected t.nextId direction), t.nextId)

/-- The table without a connection, and what its entry was. -/
def remove (t : Table) (id : ConnectionId) : Option (Table × Entry) :=
  (t.find? id).map fun entry =>
    let t' := { t with
      entries := Association.erase id t.entries
      entered := if t.entered = some id then none else t.entered }
    (t'.raise (.disconnected id), entry)

/-- The numbers of the live connections, in ascending order. -/
def ids (t : Table) : List ConnectionId := (t.entries.map (·.1)).mergeSort

/-- The live connections, in the order of their numbers. -/
def clients (t : Table) : List Client := t.ids.filterMap fun id => (t.find? id).map Entry.client

/-- Keeps a message that was sent on a connection. -/
def noteSent (t : Table) (id : ConnectionId) (text : String) : Table :=
  t.update id fun e => { e with client := e.client.noteSent text }

/-- Keeps a message that came on a connection. -/
def noteReceived (t : Table) (id : ConnectionId) (text : String) : Table :=
  t.update id fun e => { e with client := e.client.noteReceived text }

/-- Keeps a response and notes it. -/
def takeResponse (t : Table) (id : ConnectionId) (text : String) : Table :=
  (t.noteReceived id text).raise (.response id text)

/-! ## The entered remote -/

/-- The fault of a connection that is not there. -/
def noConnection (id : ConnectionId) : Fault := .notConnected ("no connection " ++ showId id)

/-- The fault of a connection on which no scripts can be sent. -/
def isInbound (id : ConnectionId) : Fault :=
  .notConnected (showId id ++ " is an inbound connection")

/-- The fault when no remote is entered. -/
def noneEntered : Fault := .notConnected "no remote entered"

/-- The remote of a connection. -/
def remote (t : Table) (id : ConnectionId) : Except Fault Remote :=
  match t.find? id with
  | some ⟨_, some remote⟩ => .ok remote
  | some ⟨_, none⟩ => .error (isInbound id)
  | none => .error (noConnection id)

/-- The numbers of the live outbound connections. -/
def outbound (t : Table) : List ConnectionId :=
  (t.entries.filter fun p => p.2.remote.isSome).map (·.1)

/-- Enters a remote: the given one, or else the outbound connection with the greatest number. -/
def enter (t : Table) : Option ConnectionId → Except Fault (Table × ConnectionId)
  | some id =>
      match t.remote id with
      | .ok _ => .ok ({ t with entered := some id }, id)
      | .error fault => .error fault
  | none =>
      match t.outbound.max? with
      | some id => .ok ({ t with entered := some id }, id)
      | none => .error (.notConnected "no outbound connection to enter")

/-- Leaves the entered remote, and tells which one it was. -/
def leave (t : Table) : Table × Option ConnectionId := ({ t with entered := none }, t.entered)

/-- The entered remote. -/
def enteredOrFault (t : Table) : Except Fault ConnectionId :=
  match t.entered with
  | some id => .ok id
  | none => .error noneEntered

/-! ## Slots -/

/-- Adds a slot behind those of an outbound connection. -/
def pushSlot (t : Table) (id : ConnectionId) (slot : Slot) : Table :=
  t.update id fun e =>
    { e with remote := e.remote.map fun r => { r with pending := r.pending.push slot } }

/-- Takes a response: it is kept and noted, and the oldest slot takes it. -/
def respond (t : Table) (id : ConnectionId) (text : String) : Table × List Outcome :=
  let t := t.takeResponse id text
  match t.find? id with
  | some ⟨_, some remote⟩ =>
      let (pending, outcomes) := remote.pending.respond text
      (t.update id fun e => { e with remote := some { remote with pending := pending } }, outcomes)
  | _ => (t, [])

/-- Removes a connection and fails the requests that wait on it.  The flag tells whether it was
live. -/
def drop (t : Table) (id : ConnectionId) (reason : String) : Table × List Outcome × Bool :=
  match t.remove id with
  | none => (t, [], false)
  | some (t, entry) =>
      (t, (entry.remote.map fun r => r.pending.failures reason).getD [], true)

/-- Removes all connections, oldest first. -/
def dropAll (t : Table) : Table × List Outcome :=
  t.ids.foldl (fun (t, outcomes) id =>
    let (t, more, _) := t.drop id Wire.connectionClosed
    (t, outcomes ++ more)) (t, [])

end Table

end PeerScript.Peer
