import PeerScript.Network.Serve

/-!
# The console

A console starts a server and reads lines.  A line is a script for the server's own session, unless
a remote is entered: then it is a request to that remote, until `leave` is typed.
-/

set_option autoImplicit false

namespace PeerScript

open Peer (ConnectionId)
open Wire (Bytes)

/-- A console, with the network that its server belongs to. -/
structure Console where
  network : Network
  /-- the number of its server -/
  server : Nat

namespace Console

/-- Starts a server with a console. -/
def start (settings : Settings) (n : Network) : Except Fault Console :=
  let opening : Network.Act Nat := do
    let i ← Network.addServer settings .standard
    Network.start i
    return i
  match opening n with
  | .ok i n => .ok ⟨n.modifyServer i (·.seated .console), i⟩
  | .error fault _ => .error fault

/-- The remote that is entered. -/
def entered (c : Console) : Option ConnectionId := (c.network.peer c.server).entered

/-- Whether a line leaves the remote that is entered. -/
def isLeave (line : String) : Bool := line == "leave" || line == "leave()"

/-- What is shown of a request that has been answered or has failed. -/
def showing : Option (Except Fault String) → Except Stop String
  | some (.ok response) => .ok response
  | some (.error fault) => .ok fault.errorText
  | none => .error .unfinished

/-- Sends a line to a remote, waits in the given way and shows the response. -/
def forward (settle : Network → Network) (c : Console) (id : ConnectionId) (line : String) :
    Console × Except Stop String :=
  let (n, result) := c.network.askWith settle c.server id line
  ({ c with network := n }, showing result)

/-- Runs a line in the session of the console and shows the stack. -/
def runHere (settle : Network → Network) (c : Console) (line : String) :
    Console × Except Stop String :=
  let (n, result) :=
    c.network.running c.server .console (answerLine (Network.hostWith settle) line)
  ({ c with network := n }, result)

/-- What a line does, and what is shown for it, when the network goes on in the given way while the
line waits. -/
def lineWith (settle : Network → Network) (c : Console) (line : String) :
    Console × Except Stop String :=
  match c.entered with
  | none => c.runHere settle line
  | some id =>
      if isLeave line then
        ({ c with network := c.network.modifyPeer c.server fun t => t.leave.1 },
          .ok ("left " ++ Peer.showId id))
      else c.forward settle id line

/-- What a line does, and what is shown for it.  A line that waits does so until the network has
come to rest. -/
def line : Console → String → Console × Except Stop String := lineWith Network.settle

/-- Lets the network come to rest. -/
def settle (c : Console) : Console := { c with network := c.network.settle }

/-- What a console does with a line of its input. -/
inductive Output where
  /-- nothing: the line is blank -/
  | silence
  | text (shown : String)
  /-- ends with an exit code -/
  | exit (code : Nat)
  deriving DecidableEq, Repr

/-- The exit code of a console whose input is no text, or which could not start. -/
def failure : Nat := 1

/-- The exit code of a console whose session broke. -/
def crash : Nat := 101

/-- Takes a line of input without its end. -/
def feed (c : Console) (bytes : Bytes) : Console × Output :=
  match Text.Utf8.decode? bytes with
  | none => (c, .exit failure)
  | some text =>
      let text := Text.trim text
      if text.isEmpty then (c, .silence)
      else
        match c.line (String.ofList text) with
        | (c, .ok shown) => (c.settle, .text shown)
        | (c, .error _) => (c, .exit crash)

/-- Takes lines of input one after another, and tells what is shown and the exit code. -/
def run (c : Console) : List Bytes → Console × List String × Nat
  | [] => (c, [], 0)
  | bytes :: rest =>
      match c.feed bytes with
      | (c, .silence) => c.run rest
      | (c, .text shown) =>
          let (c, more, code) := c.run rest
          (c, shown :: more, code)
      | (c, .exit code) => (c, [], code)

/-- The lines of an input. -/
def lines (input : Bytes) : List Bytes := input.splitOn 10

/-- Stops the server and closes all its connections. -/
def finish (c : Console) : Console :=
  settle { c with
    network := (c.network.modifyServer c.server (·.stop)).closeAll c.server }

end Console

end PeerScript
