import PeerScript.Wire.Frame

/-!
# Responses to requests

Responses arrive in the order of the requests, so a connection keeps a queue of slots, one for every
message that was sent on it.  A slot belongs to the request that waits for the response, or to
nobody when the message was sent without waiting.

The reader of a connection hands each response to the oldest slot, and fails all slots that are left
when it ends.
-/

set_option autoImplicit false

namespace PeerScript.Wire

/-- The number of a request that waits for its response. -/
abbrev Ticket := Nat

/-- Who waits for a response. -/
abbrev Slot := Option Ticket

/-- How a request ended. -/
structure Outcome where
  ticket : Ticket
  result : Except Fault String

/-- The slots of a connection, oldest first. -/
structure Pending where
  slots : List Slot
  deriving DecidableEq, Repr, Inhabited

namespace Pending

/-- No slots. -/
def empty : Pending := ⟨[]⟩

/-- One more slot. -/
def push (p : Pending) (slot : Slot) : Pending := ⟨p.slots ++ [slot]⟩

/-- The oldest slot, if there is one, and the others. -/
def pop (p : Pending) : Option Slot × Pending := (p.slots.head?, ⟨p.slots.tail⟩)

/-- The number of slots. -/
def size (p : Pending) : Nat := p.slots.length

/-- The outcomes of the requests that wait, when all of them fail for the same reason. -/
def failures (p : Pending) (reason : String) : List Outcome :=
  p.slots.filterMap fun slot => slot.map fun ticket => ⟨ticket, .error (.transport reason)⟩

/-- A response, which the oldest slot takes. -/
def respond (p : Pending) (text : String) : Pending × List Outcome :=
  match p.pop with
  | (some (some ticket), rest) => (rest, [⟨ticket, .ok text⟩])
  | (_, rest) => (rest, [])

end Pending

/-- Why requests fail when the remote goes away. -/
def connectionLost : String := "Connection lost"

/-- Why requests fail when the connection is closed from this side. -/
def connectionClosed : String := "Connection closed"

/-- What happens to a reader. -/
inductive Signal where
  /-- a message was read -/
  | message (bytes : Bytes)
  /-- reading failed -/
  | readFailed
  /-- the flag that closes the connection was set -/
  | closeFlag (closed : Bool)
  /-- nobody can set the flag any more -/
  | closerDropped
  /-- a message was sent -/
  | sent (slot : Slot)
  deriving DecidableEq, Repr

/-- The reader of an outbound connection. -/
structure Reader where
  pending : Pending
  /-- the texts that were reported, in order -/
  seen : List String
  /-- the requests that ended, in order -/
  outcomes : List Outcome
  finished : Bool

namespace Reader

/-- A reader at its start. -/
def start (pending : Pending) : Reader := ⟨pending, [], [], false⟩

/-- Ends, and fails all requests that wait. -/
def finish (r : Reader) (reason : String) : Reader :=
  { r with
    pending := .empty
    outcomes := r.outcomes ++ r.pending.failures reason
    finished := true }

/-- Reports a message and hands it to the oldest slot. -/
def deliver (r : Reader) (bytes : Bytes) : Reader :=
  let text := String.ofList (Text.Utf8.decodeLossy bytes)
  let (pending, outcomes) := r.pending.respond text
  { r with pending := pending, seen := r.seen ++ [text], outcomes := r.outcomes ++ outcomes }

/-- What a signal does.  A reader that has ended takes no notice; only the queue still grows. -/
def step (r : Reader) : Signal → Reader
  | .sent slot => { r with pending := r.pending.push slot }
  | .message bytes => if r.finished then r else r.deliver bytes
  | .readFailed => if r.finished then r else r.finish connectionLost
  | .closeFlag closed => if r.finished || !closed then r else r.finish connectionClosed
  | .closerDropped => if r.finished then r else r.finish connectionClosed

/-- What signals do, one after another. -/
def run (r : Reader) (signals : List Signal) : Reader := signals.foldl step r

end Reader

end PeerScript.Wire
