import PeerScript.Machine.Eval
import PeerScript.Network

/-!
# The objects `peer` and `server`

Scripts of a server reach the network through two objects.  Every method acts at once, except a
request: the session that made it waits while the rest of the network goes on, and takes the
response when there is one.  What goes on meanwhile is the parameter `settle`.
-/

set_option autoImplicit false

namespace PeerScript.Network

open Service (Server PeerCall ServerCall peerName serverName valueOfId)

/-- What an object is called in written text. -/
def describe (n : Network) (o : Object) : String :=
  if o.typeName = peerName then
    "peer (" ++ toString (n.peer o.serial).entries.length ++ " clients)"
  else o.typeName

/-- The network in which a server has what its running session shares with others. -/
def withShared (i : Nat) (c : Common Network) : Network := c.world.modifyServer i (·.reclaim c)

/-- What a session of a server shares with others when the network has become the given one. -/
def sharedIn (i : Nat) (c : Common Network) (n : Network) : Common Network :=
  match n.servers[i]? with
  | none => { c with world := n }
  | some s => { c with store := s.store, serial := s.serial, printed := s.printed, world := n }

/-- A method that acts on the network and goes on with the result. -/
def acting {α : Type} (i : Nat) (act : Act α) (next : α → Method Network) : Method Network :=
  .look fun _ common =>
    match act (withShared i common) with
    | .ok a n => .change (sharedIn i · n) (next a)
    | .error fault n => .change (sharedIn i · n) (.fail fault)

/-- What a session shares with others, after it has waited: the network has gone on, and other
sessions of the same server may have run. -/
def whileWaiting (settle : Network → Network) (i : Nat) (session : Session) (c : Common Network) :
    Common Network :=
  match c.world.servers[i]? with
  | none => c
  | some before =>
      let n := settle ((withShared i c).modifyServer i (·.awaiting session))
      sharedIn i c
        (n.modifyServer i fun s => { s with held := before.held, watched := before.watched })

/-- Sends a text on the given connection, or to the remote that is entered. -/
def sending (i : Nat) (id : Option Peer.ConnectionId) (text : String) (waits : Bool) :
    Act Wire.Ticket := do
  let id ← match id with
    | some id => pure id
    | none => entered i
  send i id text waits

/-- What the peer of a server does. -/
def peerMethod (settle : Network → Network) (i : Nat) : PeerCall → Method Network
  | .connect host port => acting i (connect i host port) fun id => .give (valueOfId id)
  | .enter id => acting i (enter i id) fun id => .give (valueOfId id)
  | .leave => acting i (leave i) fun left => .give (.bool left.isSome)
  | .execute text => acting i (sending i none text false) fun _ => .done
  | .executeTree tree =>
      .look fun session common =>
        let text := (Encoder.mk session.registry (describe common.world)).render tree
        acting i (sending i none text false) fun _ => .done
  | .request id text =>
      acting i (sending i id text true) fun ticket =>
        .look fun session _ =>
          .change (whileWaiting settle i session) <|
            .look fun _ common =>
              match common.world.outcome? ticket with
              | some (.ok response) => .give (.str response)
              | some (.error fault) => .fail fault
              | none => .stuck
  | .clients =>
      .look fun _ common =>
        .give (.list ((common.world.peer i).clients.map fun client => valueOfId client.id))

/-- What a server does with itself. -/
def serverMethod (i : Nat) : ServerCall → Method Network
  | .port => acting i (boundPort i) fun port => .give (Builtin.count port)
  | .stop => .change (fun c => { c with world := c.world.modifyServer i Server.stop }) .done

/-- The objects of all servers, with what goes on while a session waits. -/
def hostWith (settle : Network → Network) : Host Network where
  describe := describe
  member n o name :=
    if o.typeName = peerName ∧ name = "Entered" then
      some (((n.peer o.serial).entered.map valueOfId).getD (.bool false))
    else none
  method o name args :=
    if o.typeName = peerName then
      match PeerCall.ofArgs name args with
      | .ok call => peerMethod settle o.serial call
      | .error fault => .fail fault
    else
      match ServerCall.ofArgs name args with
      | .ok call => serverMethod o.serial call
      | .error fault => .fail fault

end PeerScript.Network
