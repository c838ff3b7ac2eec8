import PeerScript.Network.Serve

/-!
# Calls that share a connection

Any number of calls use one outbound connection at the same time.  A call looks the remote up in the
table of connections, waits for the writer, queues its slot, writes its text, lets the writer go,
and has the text noted; then it is over, or it waits for its response.  Meanwhile the remote
replies, the reader hands the replies out until it ends, and somebody may remove the connection.

Every act touches one shared thing only, and the acts of all of them follow each other in any order.
So a run is a list of acts, and what holds after every list of acts holds in every interleaving.

The queue of slots is shared by the entry in the table, by the calls that have found the remote, and
by the reader until it ends.  It stands with the reader here.  When none of its owners is left it is
dropped, and the requests that wait in it fail.
-/

set_option autoImplicit false

namespace PeerScript.Peer

open Network (textOf)
open Wire (Bytes Outcome Reader Signal Slot Ticket)

/-- How far a call has come.  A failure is why its text could not be written. -/
inductive Stage where
  /-- the remote was not looked up yet -/
  | started
  /-- has the remote, and waits for the writer -/
  | found
  /-- holds the writer -/
  | locked
  /-- holds the writer, and its slot is queued -/
  | queued
  /-- holds the writer, and has tried to write -/
  | tried (failure : Option Fault)
  /-- has let the writer go -/
  | unlocked (failure : Option Fault)
  /-- its text is noted, or the connection is removed after the failure -/
  | noted (failure : Option Fault)
  /-- waits for the response -/
  | waiting
  /-- over -/
  | closed

namespace Stage

/-- Whether the call has not sent its text yet, or has not learned that it cannot. -/
def isSending : Stage → Bool
  | waiting | closed => false
  | _ => true

/-- Whether the call has the remote, and with it the queue. -/
def hasRemote : Stage → Bool
  | started | waiting | closed => false
  | _ => true

/-- Whether the call holds the writer. -/
def holdsWriter : Stage → Bool
  | locked | queued | tried _ => true
  | _ => false

end Stage

/-- A call that sends a text, and waits for the response to it or does not. -/
structure Call where
  text : String
  waits : Bool
  stage : Stage

/-- The slot of a call. -/
def slotFor (ticket : Ticket) (waits : Bool) : Slot := if waits then some ticket else none

/-- A text that was written, and the call that has written it. -/
structure Frame where
  ticket : Ticket
  text : String
  waits : Bool

/-- An outbound connection and the calls that use it. -/
structure Exchange where
  /-- the connections of this side -/
  table : Table
  connection : ConnectionId
  /-- the calls, each under its number -/
  calls : List Call
  /-- the call that holds the writer -/
  writer : Option Ticket
  /-- what was written, in order -/
  written : List Frame
  /-- what the remote has sent, in order -/
  replies : List Bytes
  /-- how many of the replies were read -/
  read : Nat
  /-- the reader and the queue of slots -/
  reader : Reader
  /-- how calls ended, in order.  A call that does not wait and ends well leaves nothing here. -/
  endings : List Outcome

/-- What is done in one step. -/
inductive Act where
  /-- a call begins -/
  | call (text : String) (waits : Bool)
  /-- a call does what is next for it; a write succeeds -/
  | proceed (ticket : Ticket)
  /-- a call cannot write its text -/
  | fail (ticket : Ticket) (fault : Fault)
  /-- the connection is removed, from this side or because the reader has ended -/
  | remove
  /-- the remote replies to the oldest text that has no reply yet -/
  | reply (bytes : Bytes)
  /-- the remote sends what is no reply -/
  | babble (bytes : Bytes)
  /-- the reader takes the next message of the remote -/
  | read
  /-- the reader finds that the remote has gone -/
  | lose
  /-- the reader finds that the connection was removed -/
  | close

namespace Exchange

/-- A connection that was just opened. -/
def opened (table : Table) (link : Nat) : Exchange :=
  let (table, id) := table.add (some ⟨link, .empty⟩)
  ⟨table, id, [], none, [], [], 0, .start .empty, []⟩

/-- Whether the connection is in the table. -/
def isListed (x : Exchange) : Bool := (x.table.find? x.connection).isSome

/-- How far a call has come, if it has begun. -/
def stage? (x : Exchange) (ticket : Ticket) : Option Stage := x.calls[ticket]?.map Call.stage

/-! ## Endings -/

/-- Brings a call to a stage. -/
def advance (x : Exchange) (ticket : Ticket) (stage : Stage) : Exchange :=
  { x with calls := x.calls.modify ticket fun c => { c with stage := stage } }

/-- Ends a call. -/
def conclude (x : Exchange) (o : Outcome) : Exchange :=
  { x.advance o.ticket .closed with endings := x.endings ++ [o] }

/-- Hands an outcome out.  A request that still sends finds it afterwards, and one that is over
takes no notice. -/
def take (x : Exchange) (o : Outcome) : Exchange :=
  match x.stage? o.ticket with
  | some .waiting => x.conclude o
  | _ => x

/-- Lets the reader take a signal, and hands out what it makes of it. -/
def signal (x : Exchange) (s : Signal) : Exchange :=
  ((x.reader.step s).outcomes.drop x.reader.outcomes.length).foldl take
    { x with reader := x.reader.step s }

/-! ## Owners of the queue -/

/-- Whether somebody still owns the queue. -/
def isOwned (x : Exchange) : Bool :=
  x.isListed || !x.reader.finished || x.calls.any (·.stage.hasRemote)

/-- Why requests fail that wait in a queue without an owner. -/
def readerDied : String := "Reader task died waiting for response"

/-- Drops the queue if nobody owns it. -/
def release (x : Exchange) : Exchange :=
  if x.isOwned then x
  else
    (x.reader.pending.failures readerDied).foldl take
      { x with reader := { x.reader with pending := .empty } }

/-! ## Acts -/

/-- Removes the connection from the table. -/
def remove (x : Exchange) : Exchange :=
  { x with table := ((x.table.remove x.connection).map Prod.fst).getD x.table }

/-- A call has sent its text.  Its response may have come meanwhile. -/
def sent (x : Exchange) (ticket : Ticket) (waits : Bool) : Exchange :=
  if waits then
    match x.reader.outcomes.find? (·.ticket == ticket) with
    | some o => x.conclude o
    | none => x.advance ticket .waiting
  else x.advance ticket .closed

/-- What is next for a call, unless it has to wait for somebody. -/
def proceed (x : Exchange) (ticket : Ticket) (c : Call) : Option Exchange :=
  match c.stage with
  | .started =>
      match x.table.remote x.connection with
      | .ok _ => some (x.advance ticket .found)
      | .error fault => some (x.conclude ⟨ticket, .error fault⟩)
  | .found =>
      if x.writer.isNone then some { x.advance ticket .locked with writer := some ticket } else none
  | .locked =>
      some { x.advance ticket .queued with
        reader := x.reader.step (.sent (slotFor ticket c.waits)) }
  | .queued =>
      some { x.advance ticket (.tried none) with
        written := x.written ++ [⟨ticket, c.text, c.waits⟩] }
  | .tried failure => some { x.advance ticket (.unlocked failure) with writer := none }
  | .unlocked none =>
      some { x.advance ticket (.noted none) with table := x.table.noteSent x.connection c.text }
  | .unlocked (some fault) => some (x.advance ticket (.noted (some fault))).remove
  | .noted none => some (x.sent ticket c.waits)
  | .noted (some fault) => some (x.conclude ⟨ticket, .error fault⟩)
  | .waiting | .closed => none

/-- What an act does, if it can be done. -/
def act (x : Exchange) : Act → Option Exchange
  | .call text waits => some { x with calls := x.calls ++ [⟨text, waits, .started⟩] }
  | .proceed ticket => x.calls[ticket]?.bind (x.proceed ticket)
  | .fail ticket fault =>
      match x.stage? ticket with
      | some .queued => some (x.advance ticket (.tried (some fault)))
      | _ => none
  | .remove => some x.remove
  | .reply bytes =>
      if x.replies.length < x.written.length then some { x with replies := x.replies ++ [bytes] }
      else none
  | .babble bytes => some { x with replies := x.replies ++ [bytes] }
  | .read =>
      if x.reader.finished then none
      else x.replies[x.read]?.map fun bytes =>
        { x with
          read := x.read + 1
          table := x.table.takeResponse x.connection (textOf bytes) }.signal (.message bytes)
  | .lose => if x.reader.finished then none else some (x.signal .readFailed)
  | .close =>
      if x.reader.finished || x.isListed then none else some (x.signal (.closeFlag true))

/-- An act, and what becomes of the queue. -/
def step (x : Exchange) (a : Act) : Option Exchange := (x.act a).map release

/-- Acts, one after another. -/
def run (x : Exchange) : List Act → Option Exchange
  | [] => some x
  | a :: acts => (x.step a).bind (run · acts)

/-- What every act keeps is kept by a run. -/
theorem run_induction {P : Exchange → Prop} {Q : Act → Prop}
    (keeps : ∀ {x y a}, Q a → P x → x.step a = some y → P y)
    {x y : Exchange} {acts : List Act} (all : ∀ a ∈ acts, Q a) (hx : P x)
    (h : x.run acts = some y) : P y := by
  induction acts generalizing x with
  | nil =>
      cases h
      exact hx
  | cons a acts ih =>
      obtain ⟨x', hstep, hrun⟩ := Option.bind_eq_some_iff.1 h
      have hx' := keeps (all a List.mem_cons_self) hx hstep
      exact ih (fun b hb => all b (List.mem_cons_of_mem a hb)) hx' hrun

end Exchange

end PeerScript.Peer
