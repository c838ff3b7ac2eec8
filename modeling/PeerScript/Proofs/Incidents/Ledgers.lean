import PeerScript.Proofs.Incidents.Views

/-!
# What is known of a network beyond its sessions

A `Ledger` consists of a frame, which is true whatever happens, and of a record, which may go
further: it leaves some links to itself, and for those it only needs to know what a whole step at
one of their ends does.
-/

set_option autoImplicit false

namespace PeerScript.Network

open Service (Seat)
open Peer (ConnectionId)

/-- What is known of a network beyond its sessions. -/
structure Ledger where
  /-- the links that the record leaves to itself -/
  links : Nat → Prop
  /-- what is true whatever happens -/
  frame : Network → Prop
  /-- what is true as long as those who hold the links go on step by step -/
  record : Network → Prop
  frame_incident : ∀ {n n' : Network}, frame n → Incident (fun _ => False) n n' → frame n'
  record_incident : ∀ {n n' : Network}, frame n → record n → Incident links n n' → record n'
  record_step : ∀ {n n' : Network} {steps k : Nat} {side : Side}, frame n → record n → links k →
    endStep? (hostWith (settleFor steps)) n k side = some n' → frame n' → n.Progress n' →
    record n'
  /-- who holds another link does not hold one of these -/
  apart : ∀ {n : Network} {k : Nat} {side : Side} {i : Nat} {id : ConnectionId}, frame n →
    n.HeldBy k side i id → ¬ links k → ¬ n.Holding links i (.connection id)

namespace Ledger

variable {n n' : Network} {l : Ledger}

theorem holds_no_link (i : Nat) (seat : Seat) : ¬ n.Holding (fun _ => False) i seat :=
  fun ⟨_, _, _, mine, _⟩ => mine

/-- Nothing is known. -/
def blank : Ledger where
  links _ := False
  frame _ := True
  record _ := True
  frame_incident _ _ := trivial
  record_incident _ _ _ := trivial
  record_step _ _ _ _ _ _ := trivial
  apart _ _ _ := holds_no_link _ _

/-- What is known in any case. -/
def background (l : Ledger) : Ledger where
  links _ := False
  frame := l.frame
  record _ := True
  frame_incident := l.frame_incident
  record_incident _ _ _ := trivial
  record_step _ _ _ _ _ _ := trivial
  apart _ _ _ := holds_no_link _ _

/-- It is also known what has remained of an earlier network. -/
def remembering (l : Ledger) (earlier : Network) : Ledger where
  links := l.links
  frame n := l.frame n ∧ earlier.Progress n
  record := l.record
  frame_incident h happens := ⟨l.frame_incident h.1 happens, h.2.trans (.incident happens)⟩
  record_incident h := l.record_incident h.1
  record_step h record mine step h' keeps := l.record_step h.1 record mine step h'.1 keeps
  apart h := l.apart h.1

/-- The ledger is true of a network. -/
structure Holds (l : Ledger) (n : Network) : Prop where
  frame : l.frame n
  record : l.record n

theorem Holds.incident (h : l.Holds n) (happens : Incident l.links n n') : l.Holds n' where
  frame := l.frame_incident h.frame (happens.mono fun _ => False.elim)
  record := l.record_incident h.frame h.record happens

theorem Holds.background (h : l.Holds n) : l.background.Holds n := ⟨h.frame, trivial⟩

theorem Holds.remembering (h : l.Holds n) : (l.remembering n).Holds n :=
  ⟨⟨h.frame, .refl n⟩, h.record⟩

/-- Who held another link then does not hold one of these since. -/
theorem away {k : Nat} {side : Side} {i : Nat} {id : ConnectionId} (held : n.HeldBy k side i id)
    (other : ¬ l.links k) {n' : Network} (frame : (l.remembering n).frame n') :
    ¬ n'.Holding l.links i (.connection id) :=
  l.apart frame.1 ((frame.2.held k held.lt side i id).mpr held) other

end Ledger

end PeerScript.Network
