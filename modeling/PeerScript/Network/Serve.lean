import PeerScript.Network.Objects

/-!
# What goes on in a network

Whoever holds an end of a link reads what has arrived there: a server answers the messages on the
connections that it has accepted and takes the responses on those that it has opened, and a scripted
remote answers with its next reply.  `step?` lets the first end go on that can, and `settle` repeats
it until none can.

A script may ask another server something, and so on without end, so `settle` counts down.  The
count only says how long a network may go on; a network that has come to rest does not depend on it.
-/

set_option autoImplicit false

namespace PeerScript.Network

open Peer (ConnectionId)
open Service (Server Seat)
open Wire (Bytes)

/-! ## Sessions -/

/-- Runs the session of a seat, which is not idle until it ends.  A session that is not idle cannot
start. -/
def running {α : Type} (n : Network) (i : Nat) (seat : Seat) (act : Run Network α) :
    Network × Except Stop α :=
  match n.servers[i]? with
  | none => (n, .error .unfinished)
  | some s =>
      match s.idle.lookup seat with
      | none => (n, .error .unfinished)
      | some session =>
          let s := s.vacated seat
          let finish (m : Machine Network) : Network :=
            m.common.world.modifyServer i fun s =>
              { s.reclaim m.common with idle := Association.put seat m.session s.idle }
          match act ⟨session, s.common (n.modifyServer i fun _ => s)⟩ with
          | .ok a m => (finish m, .ok a)
          | .error stop m => (finish m, .error stop)

/-- Runs a text in the session of a seat, as the settings of the server say, and writes the stack
that it leaves. -/
def evaluate (host : Host Network) (n : Network) (i : Nat) (seat : Seat) (text : String) :
    Network × Except Stop String :=
  match n.servers[i]? with
  | none => (n, .error .unfinished)
  | some s => n.running i seat (answer host s.settings.language s.settings.stackPolicy text)

/-- Takes a message on a connection: the message is kept and answered, the answer is handed to
`write` and kept when that succeeds, and then the event is raised.  A session that breaks answers
nothing and raises nothing. -/
def receive {α : Type} (host : Host Network) (write : Bytes → Except Fault α)
    (n : Network) (i : Nat) (id : ConnectionId) (text : String) :
    Network × Except Stop (String × Except Fault α) :=
  match evaluate host (n.modifyPeer i (·.noteReceived id text)) i (.connection id) text with
  | (n, .error stop) => (n, .error stop)
  | (n, .ok reply) =>
      let written := write (Text.Utf8.encode reply)
      let n := match written with
        | .ok _ => n.modifyPeer i (·.noteSent id reply)
        | .error _ => n
      (n.modifyPeer i (·.raise (.request id text)), .ok (reply, written))

/-! ## Steps -/

/-- The text of a message. -/
def textOf (bytes : Bytes) : String := String.ofList (Text.Utf8.decodeLossy bytes)

/-- Takes a connection that a server has accepted away, together with its session. -/
def hangUp (n : Network) (k : Nat) (side : Side) (i : Nat) (id : ConnectionId) (reason : String) :
    Network :=
  ((n.drop i id reason).1.modifyServer i (·.vacated (.connection id))).modifyLink k (·.close side)

/-- What a server does at the end of a connection that it has accepted.  The session has to be
idle. -/
def serveStep? (host : Host Network) (n : Network) (k : Nat) (side : Side) (i : Nat)
    (id : ConnectionId) (arrival : Arrival) : Option Network :=
  if ((n.servers[i]?.map Server.idle).getD []).lookup (.connection id) |>.isNone then none
  else
    match arrival with
    | .pending => none
    | .ended _ => some (n.hangUp k side i id Wire.connectionLost)
    | .message bytes rest =>
        let n := n.modifyLink k (·.leave side rest)
        match receive host (n.write k) n i id (textOf bytes) with
        | (n, .ok (_, .ok frame)) => some (n.modifyLink k (·.write side frame))
        | (n, .ok (_, .error _)) => some (n.hangUp k side i id Wire.connectionLost)
        | (n, .error stop) =>
            let n := n.modifyServer i (·.vacated (.connection id))
            match stop with
            | .unfinished => some n
            | _ => some (n.modifyLink k (·.close side))

/-- What a server does at the end of a connection that it has opened. -/
def readStep? (n : Network) (k : Nat) (side : Side) (i : Nat) (id : ConnectionId) :
    Arrival → Option Network
  | .pending => none
  | .ended _ => some ((n.drop i id Wire.connectionLost).1.modifyLink k (·.close side))
  | .message bytes rest =>
      let (table, outcomes) := (n.peer i).respond id (textOf bytes)
      let n := { n.modifyPeer i fun _ => table with outcomes := n.outcomes ++ outcomes }
      some (n.modifyLink k (·.leave side rest))

/-- What a scripted remote does. -/
def remoteStep? (n : Network) (k : Nat) (side : Side) (replies : List Bytes) :
    Arrival → Option Network
  | .pending => none
  | .ended _ => some (n.modifyLink k (·.close side))
  | .message _ rest =>
      match replies with
      | [] => some (n.modifyLink k (·.close side))
      | reply :: more =>
          some (n.modifyLink k fun l =>
            ((l.leave side rest).modify side fun e => { e with party := .scripted more }).write side
              reply)

/-- What the holder of one end of a link does next, if there is anything to do. -/
def endStep? (host : Host Network) (n : Network) (k : Nat) (side : Side) : Option Network :=
  match n.links[k]? with
  | none => none
  | some link =>
      if (link.side side).isOpen then
        match (link.side side).party with
        | .outside => none
        | .scripted replies => n.remoteStep? k side replies (link.arrival side)
        | .server i id =>
            match (n.peer i).find? id with
            | none =>
                some ((n.modifyServer i (·.vacated (.connection id))).modifyLink k (·.close side))
            | some ⟨_, some _⟩ => n.readStep? k side i id (link.arrival side)
            | some ⟨_, none⟩ => serveStep? host n k side i id (link.arrival side)
      else none

/-- Lets the first end go on that can. -/
def step? (host : Host Network) (n : Network) : Option Network :=
  (List.range n.links.size).findSome? fun k =>
    [Side.opener, .acceptor].findSome? (endStep? host n k)

/-- Lets all ends go on until none can, for at most as many steps as given. -/
def settleFor : Nat → Network → Network
  | 0, n => n
  | steps + 1, n =>
      match step? (hostWith (settleFor steps)) n with
      | none => n
      | some n => settleFor steps n

/-- The number of steps after which a network is left as it is. -/
def patience : Nat := 1000000

/-- Lets all ends go on until none can. -/
def settle (n : Network) : Network := settleFor patience n

/-- The objects of all servers. -/
def host : Host Network := hostWith settle

/-! ## Steps from outside -/

/-- Sends a text and waits for the response in the given way.  There is none when it has not come
then. -/
def askWith (settle : Network → Network) (n : Network) (i : Nat) (id : ConnectionId)
    (text : String) :
    Network × Option (Except Fault String) :=
  match send i id text true n with
  | .error fault n => (n, some (.error fault))
  | .ok ticket n =>
      let n := settle n
      (n, n.outcome? ticket)

/-- Sends a text and waits until the network has come to rest. -/
def ask : Network → Nat → ConnectionId → String → Network × Option (Except Fault String) :=
  askWith settle

end PeerScript.Network
