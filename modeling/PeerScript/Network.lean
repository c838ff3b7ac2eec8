import PeerScript.Network.Link
import PeerScript.Network.Surroundings
import PeerScript.Service.Server

/-!
# Servers and the links between them

A network is a set of servers, the links between their connections, and the remotes that wait to be
connected, amid surroundings that decide what comes of reaching for others.  Its operations act at
once; what they set off is left to the links, on which it waits until somebody reads it.
-/

set_option autoImplicit false

namespace PeerScript

open Network (Link Party End Side Surroundings Target)
open Peer (ConnectionId Table)
open Service (Server Seat)
open Wire (Bytes Outcome Slot Ticket)

/-- Servers and the links between them. -/
structure Network where
  surroundings : Surroundings
  /-- the servers, each under its number -/
  servers : Array Server
  /-- remotes that wait for a connection at a port, each with its replies -/
  remotes : List (Nat × List Bytes)
  /-- the links, each under its number -/
  links : Array Link
  /-- the least port that may be given out -/
  nextPort : Nat
  /-- the number of the next request -/
  nextTicket : Ticket
  /-- the requests that ended, in order -/
  outcomes : List Outcome

/-- An action on a network.  The network is kept also when the action fails. -/
abbrev Network.Act (α : Type) : Type := EStateM Fault Network α

namespace Network

/-- No servers, amid the given surroundings. -/
def amid (surroundings : Surroundings) : Network := ⟨surroundings, #[], [], #[], 47813, 0, []⟩

/-- No servers, on a machine by itself that is up or cut off. -/
def empty (isUp : Bool) : Network := amid (if isUp then .loopback else .cutOff)

/-! ## Servers -/

/-- Changes a server. -/
def modifyServer (n : Network) (i : Nat) (change : Server → Server) : Network :=
  { n with servers := n.servers.modify i change }

/-- Changes the table of connections of a server. -/
def modifyPeer (n : Network) (i : Nat) (change : Table → Table) : Network :=
  n.modifyServer i fun s => { s with peer := change s.peer }

/-- The table of connections of a server.  A number without a server has no connections. -/
def peer (n : Network) (i : Nat) : Table := (n.servers[i]?.map Server.peer).getD (.new 0)

/-- Adds a server, and tells its number. -/
def addServer (settings : Settings) (registry : Registry) : Act Nat := fun n =>
  match Server.new settings registry n.servers.size with
  | .ok server => .ok n.servers.size { n with servers := n.servers.push server }
  | .error fault => .error fault n

/-! ## Ports -/

/-- Those who wait for connections, each at a port. -/
def waiting (n : Network) : List (Nat × Target) :=
  ((n.servers.map Server.listening).toList.zipIdx.flatMap fun (ports, i) =>
    ports.map fun port => (port, .server i)) ++
    n.remotes.map fun (port, replies) => (port, .remote port replies)

/-- The ports at which somebody waits for connections. -/
def ports (n : Network) : List Nat := n.waiting.map (·.1)

/-- A port at which nobody waits for connections. -/
def freePort (n : Network) : Nat :=
  let candidates := (List.range (n.ports.length + 1)).map (n.nextPort + ·)
  (candidates.find? fun port => port ∉ n.ports).getD n.nextPort

/-- Lets a server accept connections at its port, or at a free one when its settings leave that
open. -/
def start (i : Nat) : Act Unit := fun n =>
  match n.servers[i]? with
  | none => .ok () n
  | some s =>
      match n.surroundings.bind n.ports n.freePort s.settings.host s.settings.port with
      | .ok port =>
          .ok () { n.modifyServer i (·.listen port) with nextPort := max n.nextPort (port + 1) }
      | .error (step, reason) => .error (step.fault s.settings.host s.settings.port reason) n

/-- The port that a server has bound last. -/
def boundPort (i : Nat) : Act Nat := fun n =>
  match n.servers[i]?.bind Server.port with
  | some port => .ok port n
  | none => .error (.notConnected "server not started") n

/-- Lets a remote wait for one connection, and tells at which port. -/
def addRemote (replies : List Bytes) (n : Network) : Network × Nat :=
  let port := n.freePort
  ({ n with remotes := (port, replies) :: n.remotes, nextPort := port + 1 }, port)

/-! ## Connections -/

/-- Who is reached at an address, or the fault when nobody is. -/
def reach (n : Network) (host : String) (port : Nat) : Except Fault Target :=
  (n.surroundings.attempt n.waiting host port).result (address host port)

/-- Lets a server or a remote accept a connection, and tells who holds the new end. -/
def accept (n : Network) : Target → Network × Party
  | .elsewhere => (n, .outside)
  | .remote port replies =>
    ({ n with remotes := Association.erase port n.remotes }, .scripted replies)
  | .server i =>
      match n.servers[i]? with
      | none => (n, .outside)
      | some s =>
          let (table, id) := s.peer.add none
          let s := { s with peer := table }.seated (.connection id)
          (n.modifyServer i fun _ => s, .server i id)

/-- Joins two parties by a new link. -/
def join (n : Network) (opener acceptor : Party) : Network :=
  { n with links := n.links.push (.between opener acceptor) }

/-- Connects a server with an address, and tells the number of the new connection. -/
def connect (i : Nat) (host : String) (port : Nat) : Act ConnectionId := fun n =>
  match n.reach host port with
  | .error fault => .error fault n
  | .ok target =>
      let (table, id) := (n.peer i).add (some ⟨n.links.size, .empty⟩)
      let (n, acceptor) := (n.modifyPeer i fun _ => table).accept target
      .ok id (n.join (.server i id) acceptor)

/-- Connects somebody outside with a server, and tells the number of the link. -/
def attach (i : Nat) (n : Network) : Option (Network × Nat) :=
  match n.servers[i]? with
  | none => none
  | some s =>
      if n.surroundings.admits && !s.listening.isEmpty then
        let (n', acceptor) := n.accept (.server i)
        some (n'.join .outside acceptor, n.links.size)
      else none

/-- Removes a connection, and fails the requests that wait on it.  The flag tells whether it was
there. -/
def drop (n : Network) (i : Nat) (id : ConnectionId) (reason : String) : Network × Bool :=
  let (table, outcomes, found) := (n.peer i).drop id reason
  ({ n.modifyPeer i fun _ => table with outcomes := n.outcomes ++ outcomes }, found)

/-- Closes a connection from the side of the server. -/
def close (n : Network) (i : Nat) (id : ConnectionId) : Network × Bool :=
  n.drop i id Wire.connectionClosed

/-- Closes all connections of a server. -/
def closeAll (n : Network) (i : Nat) : Network :=
  let (table, outcomes) := (n.peer i).dropAll
  { n.modifyPeer i fun _ => table with outcomes := n.outcomes ++ outcomes }

/-! ## Messages -/

/-- Changes a link. -/
def modifyLink (n : Network) (k : Nat) (change : Link → Link) : Network :=
  { n with links := n.links.modify k change }

/-- Queues a slot behind those of a connection, for a request of a new number or for nobody. -/
def queue (n : Network) (i : Nat) (id : ConnectionId) (waits : Bool) : Network :=
  let slot := if waits then some n.nextTicket else none
  { n.modifyPeer i (·.pushSlot id slot) with nextTicket := n.nextTicket + 1 }

/-- Writes a message on a link: the frame that arrives, or why none does. -/
def write (n : Network) (k : Nat) (message : Bytes) : Except Fault Bytes :=
  match Wire.Frame.write message with
  | .error fault => .error fault
  | .ok frame =>
      match n.surroundings.breaks k message with
      | some broken => .error broken.fault
      | none => .ok frame

/-- Sends a text on a connection, and tells the number of the request.  Its slot is queued before
the text is written, and a text that cannot be written removes the connection. -/
def send (i : Nat) (id : ConnectionId) (text : String) (waits : Bool) : Act Ticket := fun n =>
  match (n.peer i).remote id with
  | .error fault => .error fault n
  | .ok remote =>
      match n.write remote.link (Text.Utf8.encode text) with
      | .error fault => .error fault ((n.queue i id waits).close i id).1
      | .ok frame =>
          .ok n.nextTicket (((n.queue i id waits).modifyLink remote.link
            (·.write .opener frame)).modifyPeer i (·.noteSent id text))

/-- How a request ended, if it has. -/
def outcome? (n : Network) (ticket : Ticket) : Option (Except Fault String) :=
  (n.outcomes.find? (·.ticket == ticket)).map Outcome.result

/-- The remote that is entered. -/
def entered (i : Nat) : Act ConnectionId := fun n =>
  match (n.peer i).enteredOrFault with
  | .ok id => .ok id n
  | .error fault => .error fault n

/-- Enters a remote: the given one, or else the newest. -/
def enter (i : Nat) (id : Option ConnectionId) : Act ConnectionId := fun n =>
  match (n.peer i).enter id with
  | .error fault => .error fault n
  | .ok (table, id) => .ok id (n.modifyPeer i fun _ => table)

/-- Leaves the remote that is entered, and tells which one it was. -/
def leave (i : Nat) : Act (Option ConnectionId) := fun n =>
  .ok (n.peer i).entered (n.modifyPeer i fun t => t.leave.1)

end Network

end PeerScript
