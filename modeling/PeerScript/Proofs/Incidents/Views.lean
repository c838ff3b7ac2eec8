import PeerScript.Proofs.Incidents

/-!
# What a network shows of its connections

A connection is of some kind: there is none, or it has been accepted, or it has been opened and has
a remote.  Together with the texts that were heard on connections, the requests that wait there and
those that have ended, this is all that the two sides of a conversation depend on, and here is what
each operation does to it.
-/

set_option autoImplicit false

namespace PeerScript

open Service (Server Seat)
open Peer (ConnectionId Remote)
open Wire (Outcome Slot Ticket)

/-! ## Slots -/

namespace Wire

/-- The requests that wait in slots. -/
def ticketsOf (slots : List Slot) : List Ticket := slots.filterMap id

namespace Pending

variable (p : Pending) (text reason : String)

theorem respond_fst : (p.respond text).1 = ⟨p.slots.tail⟩ := by
  obtain ⟨_ | ⟨_ | ticket, rest⟩⟩ := p <;> rfl

theorem respond_snd :
    (p.respond text).2 = (p.slots.head?.join.map (⟨·, .ok text⟩ : Ticket → Outcome)).toList := by
  obtain ⟨_ | ⟨_ | ticket, rest⟩⟩ := p <;> rfl

theorem failures_eq : p.failures reason =
    (ticketsOf p.slots).map (⟨·, .error (.transport reason)⟩ : Ticket → Outcome) := by
  rw [failures, ticketsOf, List.map_filterMap]
  rfl

end Pending

end Wire

/-! ## Tables -/

namespace Peer.Table

variable (t : Table) (id other : ConnectionId) (text reason : String)

/-- The remote of a live connection, which an inbound one does not have. -/
def kind? : Option (Option Remote) := (t.find? id).map Entry.remote

variable {t}

theorem Notes.kind? {t' : Table} (h : t.Notes t') : t'.kind? id = t.kind? id := h.remote id

variable (t)

theorem kind?_pushSlot (slot : Slot) : (t.pushSlot id slot).kind? other =
    if other = id then (t.kind? id).map
      (Option.map fun r => { r with pending := r.pending.push slot })
    else t.kind? other := by
  rw [kind?, pushSlot, find?_update]
  split
  · rename_i same
    subst same
    rw [kind?, Option.map_map, Option.map_map]
    rfl
  · rfl

theorem kind?_takeResponse : (t.takeResponse id text).kind? other = t.kind? other :=
  (t.notes_noteReceived id text).kind? other

theorem kind?_respond : (t.respond id text).1.kind? other =
    if other = id then (t.kind? id).map
      (Option.map fun r => { r with pending := ⟨r.pending.slots.tail⟩ })
    else t.kind? other := by
  have before := t.kind?_takeResponse id other text
  have here := t.kind?_takeResponse id id text
  unfold respond
  generalize t.takeResponse id text = u at before here
  rw [← before, ← here]
  dsimp only
  split
  · rename_i client remote found
    rw [kind?, find?_update]
    split
    · rename_i same
      subst same
      rw [kind?, found, Wire.Pending.respond_fst]
      rfl
    · rfl
  · rename_i none
    split
    · rename_i same
      subst same
      rw [kind?]
      cases found : u.find? other with
      | none => rfl
      | some entry =>
          obtain ⟨client, _ | remote⟩ := entry
          · rfl
          · exact absurd found (none client remote)
    · rfl

theorem outcomes_respond : (t.respond id text).2 = match t.kind? id with
    | some (some r) => (r.pending.respond text).2
    | _ => [] := by
  have before := t.kind?_takeResponse id id text
  unfold respond
  generalize t.takeResponse id text = u at before
  rw [← before, kind?]
  dsimp only
  cases u.find? id with
  | none => rfl
  | some entry => obtain ⟨client, _ | remote⟩ := entry <;> rfl

theorem heard_respond : (t.respond id text).1.heard other =
    if other = id then t.heard id ++ [text] else t.heard other := by
  have taken : (t.takeResponse id text).heard other =
      if other = id then t.heard id ++ [text] else t.heard other := by
    rw [takeResponse, heard, raise, List.filterMap_append]
    by_cases same : other = id
    · subst same
      simp [Event.heard?, heard, noteReceived, update]
    · simp [Event.heard?, heard, noteReceived, update, same, Ne.symm same]
  rw [← taken]
  unfold respond
  dsimp only
  split <;> rfl

theorem kind?_drop : (t.drop id reason).1.kind? other =
    if other = id then none else t.kind? other := by
  unfold drop remove
  cases found : t.find? id with
  | none =>
      change t.kind? other = _
      split
      · rename_i same
        rw [same, kind?, found, Option.map_none]
      · rfl
  | some entry =>
      change ((Association.erase id t.entries).lookup other).map Entry.remote = _
      rw [Association.lookup_erase]
      split <;> rfl

theorem outcomes_drop : (t.drop id reason).2.1 = match t.kind? id with
    | some (some r) => r.pending.failures reason
    | _ => [] := by
  unfold drop remove kind?
  cases t.find? id with
  | none => rfl
  | some entry => obtain ⟨client, _ | remote⟩ := entry <;> rfl

theorem heard_drop : (t.drop id reason).1.heard other = t.heard other := by
  unfold drop remove
  cases t.find? id with
  | none => rfl
  | some entry => exact heard_raise rfl

theorem nextId_drop : (t.drop id reason).1.nextId = t.nextId := by
  unfold drop remove
  cases t.find? id <;> rfl

theorem nextId_respond : (t.respond id text).1.nextId = t.nextId := by
  unfold respond
  dsimp only
  split <;> rfl

theorem kind?_add_of_ne (remote : Option Remote) {other : ConnectionId} (ne : other ≠ t.nextId) :
    (t.add remote).1.kind? other = t.kind? other := by
  change ((t.entries ++ [(t.nextId, _)]).lookup other).map Entry.remote = _
  rw [List.lookup_append, List.lookup_cons, beq_false_of_ne ne, List.lookup_nil, Option.or_none]
  rfl

theorem kind?_add_self (remote : Option Remote) (new : t.kind? t.nextId = none) :
    (t.add remote).1.kind? t.nextId = some remote := by
  have absent : t.entries.lookup t.nextId = none := Option.map_eq_none_iff.mp new
  change ((t.entries ++ [(t.nextId, _)]).lookup t.nextId).map Entry.remote = _
  rw [List.lookup_append, absent, List.lookup_cons_self]
  rfl

/-- Connections have been added. -/
structure Grows (t t' : Table) : Prop where
  nextId : t.nextId ≤ t'.nextId
  kind : ∀ x < t.nextId, t'.kind? x = t.kind? x
  heard : ∀ x, t'.heard x = t.heard x

theorem Grows.refl (t : Table) : t.Grows t := ⟨Nat.le_refl _, fun _ _ => rfl, fun _ => rfl⟩

theorem grows_add (remote : Option Remote) : t.Grows (t.add remote).1 :=
  ⟨Nat.le_succ _, fun _ lt => t.kind?_add_of_ne remote (Nat.ne_of_lt lt), fun _ => heard_raise rfl⟩

theorem Grows.trans {t t' t'' : Table} (h : t.Grows t') (k : t'.Grows t'') : t.Grows t'' where
  nextId := Nat.le_trans h.nextId k.nextId
  kind x lt := (k.kind x (Nat.lt_of_lt_of_le lt h.nextId)).trans (h.kind x lt)
  heard x := (k.heard x).trans (h.heard x)

end Peer.Table

/-! ## Networks -/

namespace Network

variable {n : Network} {i a : Nat} {id x : ConnectionId} {s : Server}

/-- The remote of a live connection of a server, which an inbound one does not have. -/
def kind? (n : Network) (a : Nat) (x : ConnectionId) : Option (Option Remote) := (n.peer a).kind? x

/-- The slots of a connection, oldest first. -/
def slots (n : Network) (a : Nat) (x : ConnectionId) : List Slot :=
  match n.kind? a x with
  | some (some r) => r.pending.slots
  | _ => []

/-- The requests that wait on a connection, oldest first. -/
def tickets (n : Network) (a : Nat) (x : ConnectionId) : List Ticket :=
  Wire.ticketsOf (n.slots a x)

theorem tickets_congr {n' : Network} (same : n'.kind? a x = n.kind? a x) :
    n'.tickets a x = n.tickets a x := by
  rw [tickets, tickets, slots, same]
  rfl

theorem kind?_of_absent (absent : n.servers[i]? = none) : n.kind? i id = none := by
  rw [kind?, peer_of_absent absent]
  rfl

/-- One connection is changed, if it is live, and no other one. -/
theorem kind?_modifyPeer (change : Peer.Table → Peer.Table)
    {f : Option (Option Remote) → Option (Option Remote)} (none : f none = none)
    (changed : ∀ other, (change (n.peer i)).kind? other =
      if other = id then f ((n.peer i).kind? id) else (n.peer i).kind? other)
    (a : Nat) (x : ConnectionId) :
    (n.modifyPeer i change).kind? a x = if a = i ∧ x = id then f (n.kind? i id)
      else n.kind? a x := by
  cases found : n.servers[i]? with
  | none =>
      rw [modifyPeer, modifyServer_of_absent found]
      split
      · rename_i here
        rw [here.1, here.2, kind?_of_absent found, none]
      · rfl
  | some s =>
      by_cases here : a = i
      · subst here
        rw [kind?, peer_modifyPeer found, ← peer_of_found found, changed]
        simp only [true_and]
        rfl
      · rw [kind?, modifyPeer, peer_modifyServer_of_ne here, if_neg fun both => here both.1]
        rfl

/-- What is noted in a table is noted in the network. -/
theorem notes_modifyPeer {change : Peer.Table → Peer.Table}
    (notes : ∀ s, n.servers[i]? = some s → s.peer.Notes (change s.peer)) (a : Nat) :
    (n.peer a).Notes ((n.modifyPeer i change).peer a) := by
  cases found : n.servers[i]? with
  | none =>
      rw [modifyPeer, modifyServer_of_absent found]
      exact .refl _
  | some s => exact peer_modifyPeer_rel _ .refl _ (peer_of_found found ▸ notes s found) a

/-- Something has been noted of connections, and sessions and links may have changed. -/
structure Notes (n n' : Network) : Prop where
  tables : ∀ a, (n.peer a).Notes (n'.peer a)
  outcomes : n'.outcomes = n.outcomes

theorem Notes.trans {n' n'' : Network} (h : n.Notes n') (k : n'.Notes n'') : n.Notes n'' where
  tables a := (h.tables a).trans (k.tables a)
  outcomes := k.outcomes.trans h.outcomes

theorem Notes.modifyPeer (n : Network) (i : Nat) {change : Peer.Table → Peer.Table}
    (notes : ∀ t : Peer.Table, t.Notes (change t)) : n.Notes (n.modifyPeer i change) :=
  ⟨notes_modifyPeer fun s _ => notes s.peer, rfl⟩

theorem Notes.modifyServer {change : Server → Server}
    (same : ∀ s, n.servers[i]? = some s → (change s).peer = s.peer) :
    n.Notes (n.modifyServer i change) where
  tables a := by
    rw [peer_modifyServer same]
    exact .refl _
  outcomes := rfl

theorem Notes.kind? {n' : Network} (h : n.Notes n') (a : Nat) (x : ConnectionId) :
    n'.kind? a x = n.kind? a x := (h.tables a).kind? x

theorem kind?_take (text : String) (a : Nat) (x : ConnectionId) :
    (n.take i id text).kind? a x = if a = i ∧ x = id then (n.kind? i id).map
      (Option.map fun r => { r with pending := ⟨r.pending.slots.tail⟩ }) else n.kind? a x :=
  kind?_modifyPeer (fun _ => ((n.peer i).respond id text).1) rfl
    (fun other => (n.peer i).kind?_respond id other text) a x

theorem heard_take (text : String) (a : Nat) (x : ConnectionId) :
    ((n.take i id text).peer a).heard x = if a = i ∧ x = id ∧ i < n.servers.size then
      (n.peer i).heard id ++ [text] else (n.peer a).heard x := by
  cases found : n.servers[i]? with
  | none =>
      have absent : (n.modifyPeer i fun _ => ((n.peer i).respond id text).1) = n :=
        modifyServer_of_absent found
      rw [take, absent, if_neg fun here => ?_]
      · rfl
      · exact Nat.lt_irrefl _ (Nat.lt_of_lt_of_le here.2.2 (Array.getElem?_eq_none_iff.mp found))
  | some s =>
      have there := (Array.getElem?_eq_some_iff.mp found).1
      change ((n.modifyPeer i fun _ => ((n.peer i).respond id text).1).peer a).heard x = _
      by_cases here : a = i
      · subst here
        rw [peer_modifyPeer found, Peer.Table.heard_respond]
        simp [there]
      · rw [modifyPeer, peer_modifyServer_of_ne here, if_neg fun both => here both.1]

theorem kind?_drop (reason : String) (a : Nat) (x : ConnectionId) :
    (n.drop i id reason).1.kind? a x = if a = i ∧ x = id then none else n.kind? a x :=
  kind?_modifyPeer (fun _ => ((n.peer i).drop id reason).1) (f := fun _ => none) rfl
    (fun other => (n.peer i).kind?_drop id other reason) a x

theorem kind?_queue (waits : Bool) (a : Nat) (x : ConnectionId) :
    (n.queue i id waits).kind? a x = if a = i ∧ x = id then (n.kind? i id).map (Option.map fun r =>
      { r with pending := r.pending.push (if waits then some n.nextTicket else none) })
      else n.kind? a x :=
  kind?_modifyPeer (·.pushSlot id (if waits then some n.nextTicket else none)) rfl
    (fun other => (n.peer i).kind?_pushSlot id other _) a x

theorem heard_queue (waits : Bool) :
    ((n.queue i id waits).peer a).heard x = (n.peer a).heard x :=
  peer_modifyPeer_rel (fun t t' => t'.heard x = t.heard x) (fun _ => rfl)
    (·.pushSlot id (if waits then some n.nextTicket else none)) rfl a

/-! ## Requests -/

theorem kind?_of_remote {r : Remote} (there : (n.peer i).remote id = .ok r) :
    n.kind? i id = some (some r) := by
  unfold Peer.Table.remote at there
  rw [kind?, Peer.Table.kind?]
  split at there
  · rename_i known
    cases there
    rw [known]
    rfl
  · exact nomatch there
  · exact nomatch there

theorem slots_take (text : String) (a : Nat) (x : ConnectionId) :
    (n.take i id text).slots a x = if a = i ∧ x = id then (n.slots i id).tail
      else n.slots a x := by
  rw [slots, kind?_take]
  split_ifs with here
  · rw [slots]
    rcases n.kind? i id with _ | _ | r <;> rfl
  · rfl

theorem outcomes_take (text : String) : (n.take i id text).outcomes =
    n.outcomes ++ ((n.slots i id).head?.join.map (⟨·, .ok text⟩ : Ticket → Outcome)).toList := by
  change n.outcomes ++ ((n.peer i).respond id text).2 = _
  rw [Peer.Table.outcomes_respond, slots, kind?]
  rcases (n.peer i).kind? id with _ | _ | r
  · rfl
  · rfl
  · exact congrArg (n.outcomes ++ ·) (r.pending.respond_snd text)

theorem slots_drop (reason : String) (a : Nat) (x : ConnectionId) :
    (n.drop i id reason).1.slots a x = if a = i ∧ x = id then [] else n.slots a x := by
  rw [slots, kind?_drop]
  split_ifs with here <;> rfl

theorem outcomes_drop (reason : String) : (n.drop i id reason).1.outcomes = n.outcomes ++
    (n.tickets i id).map (⟨·, .error (.transport reason)⟩ : Ticket → Outcome) := by
  change n.outcomes ++ ((n.peer i).drop id reason).2.1 = _
  rw [Peer.Table.outcomes_drop, tickets, slots, kind?]
  rcases (n.peer i).kind? id with _ | _ | r
  · rfl
  · rfl
  · exact congrArg (n.outcomes ++ ·) (r.pending.failures_eq reason)

theorem slots_queue (waits : Bool) {r : Remote} (live : n.kind? i id = some (some r)) (a : Nat)
    (x : ConnectionId) : (n.queue i id waits).slots a x =
      if a = i ∧ x = id then n.slots i id ++ [if waits then some n.nextTicket else none]
      else n.slots a x := by
  rw [slots, kind?_queue]
  by_cases here : a = i ∧ x = id
  · rw [if_pos here, if_pos here, slots, live]
    rfl
  · rw [if_neg here, if_neg here]
    rfl

theorem kind?_added (found : n.servers[i]? = some s) (remote : Option Remote)
    (new : n.kind? i (n.peer i).nextId = none) (a : Nat) (x : ConnectionId) :
    (n.modifyPeer i fun _ => ((n.peer i).add remote).1).kind? a x =
      if a = i ∧ x = (n.peer i).nextId then some remote else n.kind? a x := by
  by_cases here : a = i
  · subst here
    rw [kind?, peer_modifyPeer found]
    by_cases same : x = (n.peer a).nextId
    · rw [if_pos ⟨rfl, same⟩, same, Peer.Table.kind?_add_self _ remote new]
    · rw [if_neg fun both => same both.2, Peer.Table.kind?_add_of_ne _ remote same]
      rfl
  · rw [kind?, modifyPeer, peer_modifyServer_of_ne here, if_neg fun both => here both.1]
    rfl

/-- On a new connection nothing waits. -/
theorem tickets_added (found : n.servers[i]? = some s) {remote : Option Remote}
    (empty : ∀ r, remote = some r → r.pending = .empty)
    (new : n.kind? i (n.peer i).nextId = none) (a : Nat) (x : ConnectionId) :
    (n.modifyPeer i fun _ => ((n.peer i).add remote).1).tickets a x = n.tickets a x := by
  have kinds := kind?_added found remote new a x
  split at kinds
  · rename_i here
    rw [tickets, slots, kinds, here.1, here.2, tickets, slots, new]
    cases remote with
    | none => rfl
    | some r => exact congrArg (fun p => Wire.ticketsOf p.slots) (empty r rfl)
  · exact tickets_congr kinds

/-! ## Connections that are added -/

theorem grows_added (remote : Option Remote) (a : Nat) :
    (n.peer a).Grows ((n.modifyPeer i fun _ => ((n.peer i).add remote).1).peer a) :=
  peer_modifyPeer_rel _ Peer.Table.Grows.refl _ ((n.peer i).grows_add remote) a

theorem peer_accept {j : Nat} (found : n.servers[j]? = some s) (a : Nat) :
    (n.accept (.server j)).1.peer a = (n.modifyPeer j fun _ => ((n.peer j).add none).1).peer a := by
  rw [accept_server found, peer_of_found found]
  refine peer_modifyServer ?_ a
  exact fun _ _ => rfl

/-- Who accepts a connection leaves links, requests and other connections alone. -/
structure Accepts (n n' : Network) : Prop where
  links : n'.links = n.links
  outcomes : n'.outcomes = n.outcomes
  nextTicket : n'.nextTicket = n.nextTicket
  grows : ∀ a, (n.peer a).Grows (n'.peer a)

theorem accepts (n : Network) (target : Target) : n.Accepts (n.accept target).1 := by
  have still : n.Accepts n := ⟨rfl, rfl, rfl, fun _ => .refl _⟩
  cases target with
  | elsewhere => exact still
  | remote port replies => exact ⟨rfl, rfl, rfl, fun _ => .refl _⟩
  | server j =>
      cases found : n.servers[j]? with
      | none =>
          rw [accept_absent found]
          exact still
      | some s =>
          refine ⟨?_, ?_, ?_, fun a => ?_⟩
          · rw [accept_server found]
            rfl
          · rw [accept_server found]
            rfl
          · rw [accept_server found]
            rfl
          · rw [peer_accept found]
            exact grows_added none a

/-! ## Links -/

section Links

variable {n' : Network} {k : Nat} {side : Side}

theorem heldBy_congr (links : n'.links = n.links) {k : Nat} {side : Side} :
    n'.HeldBy k side a x ↔ n.HeldBy k side a x := by
  rw [HeldBy, HeldBy, links]

theorem heldBy_join {opener acceptor : Party} :
    (n.join opener acceptor).HeldBy k side a x ↔ n.HeldBy k side a x ∨
      k = n.links.size ∧ ((Link.between opener acceptor).side side).party = .server a x := by
  unfold HeldBy join
  rw [Array.getElem?_push]
  split
  · rename_i same
    subst same
    constructor
    · rintro ⟨l, ⟨⟩, party⟩
      exact .inr ⟨rfl, party⟩
    · rintro (⟨l, found, -⟩ | ⟨-, party⟩)
      · exact absurd (Array.getElem?_eq_some_iff.mp found).1 (Nat.lt_irrefl _)
      · exact ⟨_, rfl, party⟩
  · rename_i ne
    simp [ne]

/-- The links that are there remain with those who hold them, and others may be added; no request
gets the number of an earlier one. -/
structure Progress (n n' : Network) : Prop where
  size : n.links.size ≤ n'.links.size
  tickets : n.nextTicket ≤ n'.nextTicket
  held : ∀ k < n.links.size, ∀ side a x, n'.HeldBy k side a x ↔ n.HeldBy k side a x

theorem HeldBy.lt (h : n.HeldBy k side a x) : k < n.links.size := by
  obtain ⟨l, found, -⟩ := h
  exact (Array.getElem?_eq_some_iff.mp found).1

namespace Progress

theorem refl (n : Network) : n.Progress n := ⟨Nat.le_refl _, Nat.le_refl _, fun _ _ _ _ _ => .rfl⟩

theorem of_links (links : n'.links = n.links) (tickets : n.nextTicket ≤ n'.nextTicket) :
    n.Progress n' :=
  ⟨Nat.le_of_eq (congrArg Array.size links.symm), tickets, fun _ _ _ _ _ => heldBy_congr links⟩

theorem of_accepts (accepts : n.Accepts n') : n.Progress n' :=
  of_links accepts.links (Nat.le_of_eq accepts.nextTicket.symm)

theorem trans {n'' : Network} (h : n.Progress n') (k : n'.Progress n'') : n.Progress n'' where
  size := Nat.le_trans h.size k.size
  tickets := Nat.le_trans h.tickets k.tickets
  held i lt side a x :=
    (k.held i (Nat.lt_of_lt_of_le lt h.size) side a x).trans (h.held i lt side a x)

theorem join (opener acceptor : Party) : n.Progress (n.join opener acceptor) where
  size := by simp [Network.join]
  tickets := Nat.le_refl _
  held k lt side a x := by
    rw [heldBy_join]
    exact ⟨fun h => h.resolve_right fun last => Nat.ne_of_lt lt last.1, .inl⟩

theorem modifyLink {change : Link → Link}
    (parties : ∀ l side i id, n.links[k]? = some l →
      (((change l).side side).party = .server i id ↔ (l.side side).party = .server i id)) :
    n.Progress (n.modifyLink k change) where
  size := Nat.le_of_eq Array.size_modify.symm
  tickets := Nat.le_refl _
  held k' lt side a x := by
    unfold HeldBy Network.modifyLink
    rw [Array.getElem?_modify]
    split
    · rename_i same
      subst same
      constructor
      · rintro ⟨l, found, party⟩
        obtain ⟨l, there, rfl⟩ := Option.map_eq_some_iff.mp found
        exact ⟨l, there, (parties l side a x there).mp party⟩
      · rintro ⟨l, found, party⟩
        exact ⟨change l, by rw [found, Option.map_some], (parties l side a x found).mpr party⟩
    · rfl

/-- When no link is added, everybody holds what he held. -/
theorem held_iff (h : n.Progress n') (size : n'.links.size = n.links.size) (k : Nat) (side : Side)
    (a : Nat) (x : ConnectionId) : n'.HeldBy k side a x ↔ n.HeldBy k side a x :=
  ⟨fun held => (h.held k (size ▸ held.lt) side a x).mp held,
    fun held => (h.held k held.lt side a x).mpr held⟩

theorem incident {links : Nat → Prop} (happens : Incident links n n') : n.Progress n' := by
  cases happens with
  | server peer alone => exact of_links rfl (Nat.le_refl _)
  | note notes => exact of_links rfl (Nat.le_refl _)
  | link _ parties => exact modifyLink parties
  | take text _ _ => exact of_links rfl (Nat.le_refl _)
  | drop i id reason => exact of_links rfl (Nat.le_refl _)
  | send i id text waits =>
      unfold Act.after Network.send
      cases (n.peer i).remote id with
      | error fault => exact refl n
      | ok remote =>
          dsimp only
          cases n.write remote.link (Text.Utf8.encode text) with
          | error fault => exact of_links rfl (Nat.le_succ _)
          | ok frame =>
              have written : (n.queue i id waits).Progress
                  ((n.queue i id waits).modifyLink remote.link (·.write .opener frame)) :=
                modifyLink fun l side i id _ => by rw [party_write]
              exact ⟨written.size, Nat.le_succ _, written.held⟩
  | @connect i host port there =>
      unfold Act.after Network.connect
      cases n.reach host port with
      | error fault => exact refl n
      | ok target =>
          have opened : n.Progress (n.modifyPeer i fun _ =>
              ((n.peer i).add (some ⟨n.links.size, .empty⟩)).1) := of_links rfl (Nat.le_refl _)
          exact opened.trans ((of_accepts (accepts _ target)).trans (join _ _))
  | @attach i k n' attached =>
      obtain rfl := attach_eq_some attached
      exact (of_accepts (n.accepts (.server i))).trans (join _ _)
  | addServer added =>
      obtain ⟨server, -, rfl⟩ := addServer_eq_ok added
      exact of_links rfl (Nat.le_refl _)
  | around servers links outcomes tickets => exact of_links links (Nat.le_of_eq tickets.symm)

end Progress

end Links

end Network

end PeerScript
