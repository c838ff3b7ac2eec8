import PeerScript.Proofs.Networks
import PeerScript.Proofs.Sittings

/-!
# What happens in a network

All that happens in a network is made of incidents, one after another: a session comes, goes or
writes, something is noted on a connection, a text is sent or a response is taken, connections are
made and dropped, and so on.  A script that runs brings about many of them, and while it waits
others do.  An incident may be apart from some links: then nothing is read or written there, unless
by somebody outside, and the sessions of the connections that hold them do not run.
-/

set_option autoImplicit false

namespace PeerScript

open Service (Server Seat)
open Peer (ConnectionId)

/-! ## Tables -/

namespace Peer

/-- The text of a response on the given connection. -/
def Event.heard? (id : ConnectionId) : Event → Option String
  | .response id' text => if id' = id then some text else none
  | _ => none

/-- The texts of the responses on a connection that were reported, in order. -/
def Table.heard (t : Table) (id : ConnectionId) : List String :=
  t.events.filterMap (Event.heard? id)

/-- Something is noted in a table: no connection comes or goes, and nothing is sent or taken. -/
structure Table.Notes (t t' : Table) : Prop where
  nextId : t'.nextId = t.nextId
  remote : ∀ id, (t'.find? id).map Entry.remote = (t.find? id).map Entry.remote
  heard : ∀ id, t'.heard id = t.heard id

theorem Table.heard_raise {t : Table} {id : ConnectionId} {e : Event} (other : e.heard? id = none) :
    (t.raise e).heard id = t.heard id := by
  rw [heard, heard, raise, List.filterMap_append, List.filterMap_cons_none other,
    List.filterMap_nil, List.append_nil]

namespace Table

variable {t t' : Table}

theorem Notes.refl (t : Table) : t.Notes t := ⟨rfl, fun _ => rfl, fun _ => rfl⟩

theorem Notes.trans {t'' : Table} (h : t.Notes t') (k : t'.Notes t'') : t.Notes t'' where
  nextId := k.nextId.trans h.nextId
  remote id := (k.remote id).trans (h.remote id)
  heard id := (k.heard id).trans (h.heard id)

theorem notes_update (t : Table) (id : ConnectionId) {change : Entry → Entry}
    (remote : ∀ e, (change e).remote = e.remote) : t.Notes (t.update id change) where
  nextId := rfl
  remote other := by
    rw [find?, update, Association.lookup_update]
    split
    · rw [Option.map_map]
      exact congrArg (Option.map · _) (funext remote)
    · rfl
  heard _ := rfl

theorem notes_noteSent (t : Table) (id : ConnectionId) (text : String) :
    t.Notes (t.noteSent id text) := t.notes_update id fun _ => rfl

theorem notes_noteReceived (t : Table) (id : ConnectionId) (text : String) :
    t.Notes (t.noteReceived id text) := t.notes_update id fun _ => rfl

theorem notes_request (t : Table) (id : ConnectionId) (text : String) :
    t.Notes (t.raise (.request id text)) := ⟨rfl, fun _ => rfl, fun _ => heard_raise rfl⟩

theorem notes_enter {id : Option ConnectionId} {result : Table × ConnectionId}
    (entered : t.enter id = .ok result) : t.Notes result.1 := by
  unfold enter at entered
  split at entered <;> split at entered
  · cases entered
    exact ⟨rfl, fun _ => rfl, fun _ => rfl⟩
  · exact nomatch entered
  · cases entered
    exact ⟨rfl, fun _ => rfl, fun _ => rfl⟩
  · exact nomatch entered

end Table

end Peer

/-! ## Servers -/

/-- The server has the same global scope, and some of its sessions, with the frames that they keep,
are as they were. -/
structure Service.Server.LeavesAlone (own : Seat → Prop) (s s' : Server) : Prop where
  settings : s'.settings = s.settings
  registry : s'.registry = s.registry
  globals : s'.globals = s.globals
  extends_ : s.store.Extends s'.store
  root : s'.store.bindings 0 = s.store.bindings 0
  serial : s.serial ≤ s'.serial
  idle : ∀ seat, own seat → s'.idle.lookup seat = s.idle.lookup seat
  spared : ∀ seat session, own seat → s.idle.lookup seat = some session →
    session.Spared s.store s'.store

namespace Service.Server.LeavesAlone

variable {own own' : Seat → Prop} {s s' s'' : Server}

theorem refl (own : Seat → Prop) (s : Server) : s.LeavesAlone own s :=
  ⟨rfl, rfl, rfl, .refl _, rfl, Nat.le_refl _, fun _ _ => rfl, fun _ _ _ _ => .refl _ _⟩

theorem trans (h : s.LeavesAlone own s') (k : s'.LeavesAlone own s'') : s.LeavesAlone own s'' where
  settings := k.settings.trans h.settings
  registry := k.registry.trans h.registry
  globals := k.globals.trans h.globals
  extends_ := h.extends_.trans k.extends_
  root := k.root.trans h.root
  serial := Nat.le_trans h.serial k.serial
  idle seat mine := (k.idle seat mine).trans (h.idle seat mine)
  spared seat session mine idle :=
    (h.spared seat session mine idle).trans
      (k.spared seat session mine ((h.idle seat mine).trans idle))

theorem mono (h : s.LeavesAlone own s') (less : ∀ seat, own' seat → own seat) :
    s.LeavesAlone own' s' :=
  { h with
    idle := fun seat mine => h.idle seat (less seat mine)
    spared := fun seat session mine => h.spared seat session (less seat mine) }

end Service.Server.LeavesAlone

/-! ## Incidents -/

namespace Network

theorem party_leave (side : Side) (rest : Wire.Bytes) (l : Link) (other : Side) :
    ((l.leave side rest).side other).party = (l.side other).party := by
  cases side <;> cases other <;> rfl

theorem party_write (side : Side) (bytes : Wire.Bytes) (l : Link) (other : Side) :
    ((l.write side bytes).side other).party = (l.side other).party := by
  cases side <;> cases other <;> rfl

theorem party_close (side : Side) (l : Link) (other : Side) :
    ((l.close side).side other).party = (l.side other).party := by
  cases side <;> cases other <;> rfl

/-- The network behind an act, whichever way it ends. -/
def Act.after {α : Type} (act : Act α) (n : Network) : Network :=
  match act n with
  | .ok _ n => n
  | .error _ n => n

/-- A response is taken on a connection. -/
def take (n : Network) (i : Nat) (id : ConnectionId) (text : String) : Network :=
  { n.modifyPeer i fun _ => ((n.peer i).respond id text).1 with
    outcomes := n.outcomes ++ ((n.peer i).respond id text).2 }

/-- A connection of a server holds an end of a link. -/
def HeldBy (n : Network) (k : Nat) (side : Side) (a : Nat) (x : ConnectionId) : Prop :=
  ∃ l, n.links[k]? = some l ∧ (l.side side).party = .server a x

/-- The seats of the connections that hold some links. -/
def Holding (n : Network) (links : Nat → Prop) (i : Nat) (seat : Seat) : Prop :=
  ∃ k side id, links k ∧ n.HeldBy k side i id ∧ seat = .connection id

theorem Holding.ne_console {n : Network} {links : Nat → Prop} {i : Nat} {seat : Seat}
    (h : n.Holding links i seat) : seat ≠ .console := by
  obtain ⟨_, _, _, -, -, rfl⟩ := h
  exact nofun

/-- Something happens in a network, apart from the given links. -/
inductive Incident (links : Nat → Prop) (n : Network) : Network → Prop
  | server {i : Nat} {change : Server → Server} :
      (∀ s, n.servers[i]? = some s → (change s).peer = s.peer) →
      (∀ s, n.servers[i]? = some s → s.LeavesAlone (n.Holding links i) (change s)) →
      Incident links n (n.modifyServer i change)
  | note {i : Nat} {change : Peer.Table → Peer.Table} :
      (∀ s, n.servers[i]? = some s → s.peer.Notes (change s.peer)) →
      Incident links n (n.modifyPeer i change)
  | link {k : Nat} {change : Link → Link} :
      (links k → ∃ l side, n.links[k]? = some l ∧ (l.side side).party = .outside) →
      (∀ l side i id, n.links[k]? = some l →
        (((change l).side side).party = .server i id ↔ (l.side side).party = .server i id)) →
      Incident links n (n.modifyLink k change)
  | take {i k : Nat} {side : Side} {id : ConnectionId} (text : String) : n.HeldBy k side i id →
      ¬ n.Holding links i (.connection id) → Incident links n (n.take i id text)
  | drop (i : Nat) (id : ConnectionId) (reason : String) : Incident links n (n.drop i id reason).1
  | send (i : Nat) (id : ConnectionId) (text : String) (waits : Bool) :
      Incident links n ((send i id text waits).after n)
  | connect {i : Nat} (host : String) (port : Nat) : i < n.servers.size →
      Incident links n ((connect i host port).after n)
  | attach {i k : Nat} {n' : Network} : n.attach i = some (n', k) → Incident links n n'
  | addServer {settings : Settings} {registry : Registry} {i : Nat} {n' : Network} :
      addServer settings registry n = .ok i n' → Incident links n n'
  /-- the surroundings, the remotes that wait, and the port that is next -/
  | around {n' : Network} : n'.servers = n.servers → n'.links = n.links →
      n'.outcomes = n.outcomes → n'.nextTicket = n.nextTicket → Incident links n n'

/-- What happens apart from some links happens apart from fewer ones. -/
theorem Incident.mono {links links' : Nat → Prop} {n n' : Network} (h : Incident links n n')
    (fewer : ∀ k, links' k → links k) : Incident links' n n' := by
  have less : ∀ i seat, n.Holding links' i seat → n.Holding links i seat :=
    fun i seat ⟨k, side, id, mine, held, same⟩ => ⟨k, side, id, fewer k mine, held, same⟩
  cases h with
  | server peer alone => exact .server peer fun s found => (alone s found).mono (less _)
  | note notes => exact .note notes
  | link outside parties => exact .link (fun mine => outside (fewer _ mine)) parties
  | take text held away => exact .take text held fun mine => away (less _ _ mine)
  | drop i id reason => exact .drop i id reason
  | send i id text waits => exact .send i id text waits
  | connect host port there => exact .connect host port there
  | attach attached => exact .attach attached
  | addServer added => exact .addServer added
  | around servers links outcomes tickets => exact .around servers links outcomes tickets

end Network

end PeerScript
