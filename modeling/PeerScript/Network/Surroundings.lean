import PeerScript.Number.Layout
import PeerScript.Text.Letter
import PeerScript.Wire.Frame

/-!
# What is decided outside of a network

A network reaches others through machines, names and streams that it does not know.  Whether a port
can be bound, what comes of an attempt to connect, and whether a stream takes a message, are decided
by its `Surroundings`; what a server makes of the decision, and the fault that it reports, are
decided here.

Two surroundings are at hand: a machine by itself, whose ports all lead to those who wait there, and
one that is cut off.
-/

set_option autoImplicit false

namespace PeerScript.Network

open Wire (Bytes)

/-- The text of a host and a port. -/
def address (host : String) (port : Nat) : String := host ++ ":" ++ toString port

/-! ## Connections -/

/-- Who waits at a port. -/
inductive Target where
  | server (index : Nat)
  | remote (port : Nat) (replies : List Bytes)
  /-- somebody outside of the network -/
  | elsewhere

/-- What comes of an attempt to connect. -/
inductive Attempt where
  /-- nobody has answered in time -/
  | late
  /-- there is no stream, for a reason -/
  | failed (reason : String)
  /-- there was a stream, but it cannot be told to send without delay -/
  | delaying (reason : String)
  /-- there was a stream, but it does not know the address of its other side -/
  | anonymous (reason : String)
  | opened (target : Target)

/-- Who is reached at an address, or the fault when the attempt came to nothing.  A stream that is
given up again looks to its other side like somebody who connects and says nothing. -/
def Attempt.result (address : String) : Attempt → Except Fault Target
  | late => .error (.transport ("Connection timeout to " ++ address))
  | failed reason => .error (.transport ("Failed to connect to " ++ address ++ ": " ++ reason))
  | delaying reason => .error (.transport ("Failed to set TCP_NODELAY: " ++ reason))
  | anonymous reason => .error (.transport ("Failed to read peer address: " ++ reason))
  | opened target => .ok target

/-! ## Ports -/

/-- A step on the way to a port at which connections are accepted. -/
inductive Preparation where
  | resolve
  | choose
  | create
  | share
  /-- binds an address -/
  | bind (resolved : String)
  /-- listens at an address -/
  | listen (resolved : String)
  | look

/-- The fault when a step fails for a reason. -/
def Preparation.fault (host : String) (port : Nat) (reason : String) : Preparation → Fault
  | resolve => .cannotListen ("Failed to resolve " ++ address host port ++ ": " ++ reason)
  | choose => .cannotListen ("No address for " ++ address host port)
  | create => .cannotListen ("Failed to create socket: " ++ reason)
  | share => .cannotListen ("Failed to set SO_REUSEADDR: " ++ reason)
  | bind resolved => .cannotListen ("Failed to bind " ++ resolved ++ ": " ++ reason)
  | listen resolved => .cannotListen ("Failed to listen on " ++ resolved ++ ": " ++ reason)
  | look => .cannotListen ("Failed to read local address: " ++ reason)

/-! ## Streams -/

/-- Where the writing of a frame broke. -/
inductive Break where
  | length (reason : String)
  | body (reason : String)
  | flush (reason : String)

/-- The fault of a frame that could not be written. -/
def Break.fault : Break → Fault
  | length reason => .transport ("TCP write length failed: " ++ reason)
  | body reason => .transport ("TCP write data failed: " ++ reason)
  | flush reason => .transport ("TCP flush failed: " ++ reason)

/-! ## Surroundings -/

/-- What is decided outside of a network. -/
structure Surroundings where
  /-- whether somebody outside gets through to a server that listens -/
  admits : Bool
  /-- the port that is bound for a host and a port, or the step that failed and why; given are the
  ports in use, and one that is free -/
  bind : List Nat → Nat → String → Nat → Except (Preparation × String) Nat
  /-- what comes of an attempt to connect to a host and a port; given are those who wait at ports of
  the network -/
  attempt : List (Nat × Target) → String → Nat → Attempt
  /-- where the writing of a message on a link breaks, if it does -/
  breaks : Nat → Bytes → Option Break

namespace Surroundings

/-- The number of a decimal octet. -/
def octet? (digits : List Char) : Option Nat :=
  if digits.isEmpty || 3 < digits.length || !digits.all Text.isDecimalDigit then none
  else
    let value := Number.ofDigits digits
    if value < 256 then some value else none

/-- Whether a host names this machine. -/
def isLocal (host : String) : Bool :=
  host == "localhost" || host == "0.0.0.0" ||
    match (host.toList.splitOn '.').mapM octet? with
    | some [127, _, _, _] => true
    | _ => false

/-- Binds the port that is wanted, or the free one when none is wanted, on this machine. -/
def bindHere (taken : List Nat) (free : Nat) (host : String) (port : Nat) :
    Except (Preparation × String) Nat :=
  let wanted := if port = 0 then free else port
  if !isLocal host then .error (.resolve, "unknown host")
  else if wanted ∈ taken
  then .error (.bind (address host port), "Address already in use (os error 98)")
  else .ok wanted

/-- Why nobody is reached from a machine that is cut off. -/
def unreachable : String := "Network is unreachable (os error 101)"

/-- Why nobody is reached at a port where nobody waits. -/
def refused : String := "Connection refused (os error 111)"

/-- Those who wait at ports of this machine are reached, and no others. -/
def attemptHere (waiting : List (Nat × Target)) (host : String) (port : Nat) : Attempt :=
  if isLocal host then
    match waiting.lookup port with
    | some target => .opened target
    | none => .failed refused
  else .failed unreachable

/-- A machine by itself. -/
def loopback : Surroundings := ⟨true, bindHere, attemptHere, fun _ _ => none⟩

/-- A machine from which nobody is reached. -/
def cutOff : Surroundings := ⟨false, bindHere, fun _ _ _ => .failed unreachable, fun _ _ => none⟩

end Surroundings

end PeerScript.Network
