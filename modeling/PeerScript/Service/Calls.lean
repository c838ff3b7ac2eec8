import PeerScript.Peer.Table
import PeerScript.Value

/-!
# What scripts ask of `peer` and `server`

The arguments of a method are checked before anything is done.  A `PeerCall` or a `ServerCall` is a
request that has passed this check.
-/

set_option autoImplicit false

namespace PeerScript.Service

open Peer (ConnectionId)

/-- The type names of the two objects of a server, which are also the names they are bound to. -/
def peerName : String := "peer"

/-- The name of the object for the server itself. -/
def serverName : String := "server"

/-- A request to the peer. -/
inductive PeerCall where
  | connect (host : String) (port : Nat)
  | enter (id : Option ConnectionId)
  | leave
  | execute (text : String)
  | executeTree (tree : Tree)
  | request (id : Option ConnectionId) (text : String)
  | clients

/-- A request to the server. -/
inductive ServerCall where
  | port
  | stop

/-- The fault of a method with the wrong number of arguments. -/
def wrongCount (method : String) (expected : Nat) (args : List Value) : Fault :=
  .arity method expected args.length

/-- The number of a connection, given as a value. -/
def idOfValue (method : String) (v : Value) : Except Fault ConnectionId :=
  match v.int? with
  | some i =>
      if 0 ≤ i.toInt then .ok i.toInt.toNat
      else .error (.typeError (method ++ " expects a connection id, got " ++ v.typeName))
  | none => .error (.typeError (method ++ " expects a connection id, got " ++ v.typeName))

/-- The number of a connection as a value. -/
def valueOfId (id : ConnectionId) : Value := .int (Int64.ofNat id)

namespace PeerCall

/-- The request that a method of the peer makes of its arguments. -/
def ofArgs (method : String) (args : List Value) : Except Fault PeerCall :=
  match method with
  | "Connect" =>
      match args with
      | [.str host, .int port] =>
          if 0 ≤ port.toInt ∧ port.toInt < 65536 then .ok (.connect host port.toInt.toNat)
          else .error (.typeError ("Invalid port: " ++ String.ofList (Number.integer port.toInt)))
      | [_, _] => .error (.typeError "Connect expects (host: string, port: int)")
      | _ => .error (wrongCount method 2 args)
  | "Enter" =>
      match args with
      | [] => .ok (.enter none)
      | [id] => (idOfValue method id).map fun id => .enter (some id)
      | _ => .error (wrongCount method 1 args)
  | "Leave" => if args.isEmpty then .ok .leave else .error (wrongCount method 0 args)
  | "Execute" =>
      match args with
      | [.str text] => .ok (.execute text)
      | [.closure _ body _] => .ok (.executeTree body)
      | [other] =>
          .error (.typeError ("Execute expects a script or continuation, got " ++ other.typeName))
      | _ => .error (wrongCount method 1 args)
  | "Request" =>
      match args with
      | [.str text] => .ok (.request none text)
      | [id, .str text] => (idOfValue method id).map fun id => .request (some id) text
      | _ => .error (.typeError "Request expects ([id,] script: string)")
  | "Clients" => if args.isEmpty then .ok .clients else .error (wrongCount method 0 args)
  | _ => .error (.unknownMember peerName method)

end PeerCall

namespace ServerCall

/-- The request that a method of the server makes of its arguments. -/
def ofArgs (method : String) (args : List Value) : Except Fault ServerCall :=
  match method with
  | "Port" => if args.isEmpty then .ok .port else .error (wrongCount method 0 args)
  | "Stop" => if args.isEmpty then .ok .stop else .error (wrongCount method 0 args)
  | _ => .error (.unknownMember serverName method)

end ServerCall

end PeerScript.Service
