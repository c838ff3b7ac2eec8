import PeerScript.Service.Answer
import PeerScript.Service.Calls

/-!
# A server

A server keeps a session for every connection that it has accepted, and one for its own console.
Each session has a scope of its own below the global scope, so what one of them binds no other one
sees.  The global scope holds the builtins, the objects `peer` and `server`, and four shorthands.
-/

set_option autoImplicit false

namespace PeerScript.Service

open Peer (ConnectionId Table)

/-- Whose session it is. -/
inductive Seat where
  | console
  | connection (id : ConnectionId)
  deriving DecidableEq, Repr, Inhabited

/-- A server and everything that belongs to it alone. -/
structure Server where
  settings : Settings
  registry : Registry
  /-- the global scope -/
  globals : FrameId
  store : Store
  /-- the serial number of the next instance -/
  serial : Nat
  /-- the lines that its scripts have printed, last one first -/
  printed : List String
  /-- the sessions that do not run -/
  idle : List (Seat × Session)
  /-- the handles of sessions that wait for the network -/
  held : List FrameId
  /-- the homes of the functions of sessions that wait for the network -/
  watched : List FrameId
  peer : Table
  stopping : Bool
  /-- the port that was bound last -/
  port : Option Nat
  /-- the ports at which connections are accepted -/
  listening : List Nat

namespace Server

/-- The shorthands, each with the statement that it stands for. -/
def shorthands (registry : Registry) (bootstrap : Bootstrap) : List (String × String) :=
  let host := (Encoder.plain registry).encode (.str bootstrap.host)
  [("connect", "peer.Connect(" ++ host ++ ", " ++ toString bootstrap.port ++ ")"),
   ("enter", "peer.Enter()"),
   ("join", "assert(connect() && enter())"),
   ("leave", "peer.Leave()")]

/-- Binds a shorthand in a scope. -/
def bindShorthand (registry : Registry) (globals : FrameId) (state : Store × Nat)
    (shorthand : String × String) : Except Fault (Store × Nat) := do
  let (store, serial) := state
  let (body, serial) ←
    Script.parse .rho ⟨store.contains globals, registry⟩ shorthand.2 serial
  return (store.set globals shorthand.1 (.closure [] body none), serial)

/-- A server that has not been started.  Its objects are told from those of other servers by the
given number. -/
def new (settings : Settings) (registry : Registry) (number : Nat) : Except Fault Server := do
  let (store, globals) := Store.empty.alloc none
  let store := Builtin.install store globals
  let store := store.set globals peerName (.object ⟨peerName, number⟩)
  let store := store.set globals serverName (.object ⟨serverName, number⟩)
  let (store, serial) ←
    (shorthands registry settings.bootstrap).foldlM (bindShorthand registry globals) (store, 0)
  return {
    settings, registry, globals, store, serial
    printed := [], idle := [], held := [], watched := []
    peer := .new settings.historyLimit
    stopping := false, port := none, listening := [] }

/-! ## Sessions -/

/-- Gives a seat a new session over a scope of its own. -/
def seated (s : Server) (seat : Seat) : Server :=
  let (store, scope) := s.store.alloc (some s.globals)
  { s with store, idle := Association.put seat (.new s.registry scope) s.idle }

/-- The server without the session of a seat. -/
def vacated (s : Server) (seat : Seat) : Server := { s with idle := Association.erase seat s.idle }

/-- What the session that runs shares with all others, when the objects are in the given state. -/
def common {σ : Type} (s : Server) (world : σ) : Common σ :=
  let start : Common σ := ⟨s.store, s.serial, s.printed, world, s.globals :: s.held, s.watched⟩
  s.idle.foldl (fun c entry => c.suspend entry.2) start

/-- The server after a session has changed what it shares with all others. -/
def reclaim {σ : Type} (s : Server) (c : Common σ) : Server :=
  { s with store := c.store, serial := c.serial, printed := c.printed }

/-- The server while one more session waits for the network. -/
def awaiting (s : Server) (session : Session) : Server :=
  { s with held := session.handles ++ s.held, watched := session.homes ++ s.watched }

/-! ## Listening -/

/-- Accepts connections at a port, unless the server has been stopped. -/
def listen (s : Server) (port : Nat) : Server :=
  { s with port := some port, listening := if s.stopping then [] else s.listening ++ [port] }

/-- Accepts no more connections.  Those that are there go on. -/
def stop (s : Server) : Server := { s with stopping := true, listening := [] }

end Server

end PeerScript.Service
