import PeerScript.Proofs.Locality.Networks
import PeerScript.Proofs.Steps.World

/-!
# A connection whose session runs

While the session of an accepted connection runs, nobody else takes a message on that connection:
its seat is not idle.  So whatever the rest of the network does meanwhile, and whatever the script
itself asks of `peer` and `server`, the histories of the connection stay as they are and no request
of it is reported.  Only the whole connection may go.

`IsBusy` says so of a server.  Every change of the table keeps it, and with it every step of a
network, and so does the network while a session waits; hence every evaluation does.
-/

set_option autoImplicit false

namespace PeerScript

open Peer (Client ConnectionId Event Remote)
open Service (Server Seat PeerCall ServerCall peerName)
open Wire (Bytes)

/-! ## Tables -/

namespace Peer

/-- The text of a request on the given connection. -/
def Event.asked? (id : ConnectionId) : Event → Option String
  | .request id' text => if id' = id then some text else none
  | _ => none

namespace Table

/-- The texts of the requests on a connection that were reported, in order. -/
def asked (t : Table) (id : ConnectionId) : List String := t.events.filterMap (Event.asked? id)

/-- An accepted connection has the given histories or is gone, and the given requests on it were
reported. -/
structure Keeps (id : ConnectionId) (c : Client) (texts : List String) (t : Table) : Prop where
  numbered : id < t.nextId
  entry : ∀ e, t.find? id = some e → e = ⟨c, none⟩
  asked : t.asked id = texts

theorem asked_raise {t : Table} {id : ConnectionId} {e : Event} (other : e.asked? id = none) :
    (t.raise e).asked id = t.asked id := by
  rw [asked, asked, raise, List.filterMap_append, List.filterMap_cons_none other,
    List.filterMap_nil, List.append_nil]

theorem asked_raise_request (t : Table) (id : ConnectionId) (text : String) :
    (t.raise (.request id text)).asked id = t.asked id ++ [text] := by
  rw [asked, asked, raise, List.filterMap_append]
  congr 1
  simp [Event.asked?]

namespace Keeps

variable {t : Table} {id : ConnectionId} {c : Client} {texts : List String} (h : t.Keeps id c texts)

include h

theorem raise {e : Event} (other : e.asked? id = none) : (t.raise e).Keeps id c texts :=
  ⟨h.numbered, h.entry, (asked_raise other).trans h.asked⟩

/-- An entry is changed, but not that of the connection. -/
theorem update {id' : ConnectionId} {change : Entry → Entry}
    (same : id' = id → ∀ e, t.find? id = some e → change e = e) :
    (t.update id' change).Keeps id c texts := by
  refine ⟨h.numbered, fun e found => ?_, h.asked⟩
  rw [find?_update] at found
  split at found
  · rename_i is
    obtain ⟨e', found', rfl⟩ := Option.map_eq_some_iff.mp found
    rw [same is.symm e' found']
    exact h.entry e' found'
  · exact h.entry e found

/-- A new connection has a number of its own. -/
theorem add (remote : Option Remote) : (t.add remote).1.Keeps id c texts := by
  change (Table.raise _ (.connected t.nextId _)).Keeps id c texts
  refine Keeps.raise ?_ rfl
  refine ⟨Nat.lt_succ_of_lt h.numbered, fun e found => ?_, h.asked⟩
  unfold find? at found
  dsimp only at found
  rw [List.lookup_append] at found
  cases earlier : t.entries.lookup id with
  | some e' =>
      rw [earlier, Option.some_or] at found
      exact h.entry e (earlier.trans found)
  | none =>
      rw [earlier, Option.none_or, List.lookup_cons, beq_false_of_ne (Nat.ne_of_lt h.numbered)]
        at found
      exact nomatch found

theorem drop (id' : ConnectionId) (reason : String) : (t.drop id' reason).1.Keeps id c texts := by
  unfold Table.drop remove
  cases t.find? id' with
  | none => exact h
  | some entry =>
      change (Table.raise _ (.disconnected id')).Keeps id c texts
      refine Keeps.raise ?_ rfl
      refine ⟨h.numbered, fun e found => ?_, h.asked⟩
      unfold find? at found
      dsimp only at found
      rw [Association.lookup_erase] at found
      split at found
      · exact nomatch found
      · exact h.entry e found

theorem enter {id' : Option ConnectionId} {t' : Table} {entered : ConnectionId}
    (ran : t.enter id' = .ok (t', entered)) : t'.Keeps id c texts := by
  unfold Table.enter at ran
  cases id' with
  | none =>
      dsimp only at ran
      split at ran
      · cases ran
        exact ⟨h.numbered, h.entry, h.asked⟩
      · exact nomatch ran
  | some id' =>
      dsimp only at ran
      split at ran
      · cases ran
        exact ⟨h.numbered, h.entry, h.asked⟩
      · exact nomatch ran

/-- An accepted connection has no slots. -/
theorem pushSlot (id' : ConnectionId) (slot : Wire.Slot) : (t.pushSlot id' slot).Keeps id c texts :=
  h.update fun _ e found => by rw [h.entry e found]; rfl

/-- Scripts are sent on connections that were opened. -/
theorem not_remote {id' : ConnectionId} {remote : Remote} (opened : t.remote id' = .ok remote) :
    id' ≠ id := by
  rintro rfl
  unfold Table.remote at opened
  split at opened
  · rename_i found
    exact nomatch h.entry _ found
  · exact nomatch opened
  · exact nomatch opened

theorem noteSent {id' : ConnectionId} (other : id' ≠ id) (text : String) :
    (t.noteSent id' text).Keeps id c texts := h.update fun same => absurd same other

theorem noteReceived {id' : ConnectionId} (other : id' ≠ id) (text : String) :
    (t.noteReceived id' text).Keeps id c texts := h.update fun same => absurd same other

/-- Responses come on connections that were opened. -/
theorem respond {id' : ConnectionId} {e : Client} {remote : Remote}
    (found : t.find? id' = some ⟨e, some remote⟩) (text : String) :
    (t.respond id' text).1.Keeps id c texts := by
  have other : id' ≠ id := by
    rintro rfl
    exact nomatch h.entry _ found
  have taken : (t.takeResponse id' text).Keeps id c texts := (h.noteReceived other text).raise rfl
  unfold Table.respond
  dsimp only
  split
  · exact taken.update fun same => absurd same other
  · exact taken

end Keeps

end Table

end Peer

/-! ## Servers -/

/-- The session of an accepted connection is not idle, and its table is as said. -/
structure Service.Server.IsBusy (id : ConnectionId) (c : Client) (texts : List String)
    (s : Server) : Prop where
  running : s.idle.lookup (.connection id) = none
  peer : s.peer.Keeps id c texts

namespace Service.Server.IsBusy

variable {s : Server} {id : ConnectionId} {c : Client} {texts : List String}
  (h : s.IsBusy id c texts)

include h

theorem vacated (seat : Seat) : (s.vacated seat).IsBusy id c texts := by
  refine ⟨?_, h.peer⟩
  change (Association.erase seat s.idle).lookup _ = none
  rw [Association.lookup_erase]
  split
  · rfl
  · exact h.running

theorem put {seat : Seat} (other : seat ≠ .connection id) {s' : Server} {session : Session}
    (idle : s'.idle = Association.put seat session s.idle) (peer : s'.peer = s.peer) :
    s'.IsBusy id c texts := by
  refine ⟨?_, peer ▸ h.peer⟩
  rw [idle, Association.lookup_put, if_neg (Ne.symm other)]
  exact h.running

theorem seated {seat : Seat} (other : seat ≠ .connection id) : (s.seated seat).IsBusy id c texts :=
  h.put other rfl rfl

theorem table {change : Peer.Table → Peer.Table} (keeps : (change s.peer).Keeps id c texts) :
    Server.IsBusy id c texts { s with peer := change s.peer } := ⟨h.running, keeps⟩

end Service.Server.IsBusy

/-! ## Networks -/

namespace Network

/-- The session of an accepted connection of a server is not idle, and its table is as said. -/
def Busy (i : Nat) (id : ConnectionId) (c : Client) (texts : List String) (n : Network) : Prop :=
  ∃ s, n.servers[i]? = some s ∧ s.IsBusy id c texts

variable {n : Network} {i : Nat} {id : ConnectionId} {c : Client} {texts : List String}

namespace Busy

theorem of_servers {n' : Network} (h : n.Busy i id c texts) (same : n'.servers = n.servers) :
    n'.Busy i id c texts := by
  rw [Busy, same]
  exact h

theorem modifyServer {j : Nat} {change : Server → Server} (h : n.Busy i id c texts)
    (keeps : ∀ s, n.servers[j]? = some s → j = i → s.IsBusy id c texts →
      (change s).IsBusy id c texts) :
    (n.modifyServer j change).Busy i id c texts := by
  obtain ⟨s, found, busy⟩ := h
  by_cases same : j = i
  · subst same
    exact ⟨_, servers_modifyServer found change, keeps s found rfl busy⟩
  · refine ⟨s, ?_, busy⟩
    rw [Network.modifyServer, Array.getElem?_modify, if_neg same]
    exact found

/-- Neither the sessions of the server nor its table are changed. -/
theorem modified {j : Nat} {change : Server → Server} (h : n.Busy i id c texts)
    (idle : ∀ s, (change s).idle = s.idle) (peer : ∀ s, (change s).peer = s.peer) :
    (n.modifyServer j change).Busy i id c texts :=
  h.modifyServer fun s _ _ busy => ⟨idle s ▸ busy.running, peer s ▸ busy.peer⟩

theorem modifyPeer {j : Nat} {change : Peer.Table → Peer.Table} (h : n.Busy i id c texts)
    (keeps : j = i → ∀ t, n.peer j = t → t.Keeps id c texts → (change t).Keeps id c texts) :
    (n.modifyPeer j change).Busy i id c texts :=
  h.modifyServer fun s found same busy => busy.table <|
    keeps same s.peer (peer_of_found found) busy.peer

theorem setPeer {j : Nat} {t : Peer.Table} (h : n.Busy i id c texts)
    (keeps : j = i → (n.peer j).Keeps id c texts → t.Keeps id c texts) :
    (n.modifyPeer j fun _ => t).Busy i id c texts :=
  h.modifyPeer fun same _ is busy => keeps same (is ▸ busy)

theorem modifyLink (h : n.Busy i id c texts) (k : Nat) (change : Link → Link) :
    (n.modifyLink k change).Busy i id c texts := h.of_servers rfl

theorem vacated (h : n.Busy i id c texts) (j : Nat) (seat : Seat) :
    (n.modifyServer j (·.vacated seat)).Busy i id c texts :=
  h.modifyServer fun _ _ _ busy => busy.vacated seat

theorem drop (h : n.Busy i id c texts) (j : Nat) (id' : ConnectionId) (reason : String) :
    (n.drop j id' reason).1.Busy i id c texts :=
  of_servers (n := n.modifyPeer j fun _ => ((n.peer j).drop id' reason).1)
    (h.setPeer fun _ busy => busy.drop id' reason) rfl

theorem hangUp (h : n.Busy i id c texts) (k : Nat) (side : Side) (j : Nat) (id' : ConnectionId)
    (reason : String) :
    (n.hangUp k side j id' reason).Busy i id c texts :=
  ((h.drop j id' reason).vacated j _).modifyLink k _

end Busy

/-! ## What scripts do to a network -/

/-- Whichever way the act ends, the connection is kept busy. -/
def Act.KeepsBusy {α : Type} (i : Nat) (id : ConnectionId) (c : Client) (texts : List String)
    (act : Act α) : Prop :=
  ∀ n : Network, n.Busy i id c texts → match act n with
    | .ok _ n' | .error _ n' => n'.Busy i id c texts

namespace Act.KeepsBusy

variable {α β : Type}

theorem bind {act : Act α} {next : α → Act β} (h : KeepsBusy i id c texts act)
    (rest : ∀ a, KeepsBusy i id c texts (next a)) : KeepsBusy i id c texts (act >>= next) := by
  intro n busy
  have first := h n busy
  have step : (act >>= next) n = (match act n with
    | .ok a n' => next a n'
    | .error fault n' => .error fault n') := by
    change EStateM.bind act next n = _
    rw [EStateM.bind]
    cases act n <;> rfl
  rw [step]
  cases ran : act n with
  | error fault n₁ =>
      rw [ran] at first
      exact first
  | ok a n₁ =>
      rw [ran] at first
      exact rest a n₁ first

theorem entered (j : Nat) : KeepsBusy i id c texts (Network.entered j) := by
  intro n busy
  unfold Network.entered
  cases (n.peer j).enteredOrFault <;> exact busy

theorem boundPort (j : Nat) : KeepsBusy i id c texts (Network.boundPort j) := by
  intro n busy
  unfold Network.boundPort
  cases n.servers[j]?.bind Server.port <;> exact busy

theorem leave (j : Nat) : KeepsBusy i id c texts (Network.leave j) := fun _ busy =>
  busy.modifyPeer fun _ _ _ busy => ⟨busy.numbered, busy.entry, busy.asked⟩

theorem enter (j : Nat) (id' : Option ConnectionId) :
    KeepsBusy i id c texts (Network.enter j id') := by
  intro n busy
  unfold Network.enter
  cases entered : (n.peer j).enter id' with
  | error fault => exact busy
  | ok entered' => exact busy.setPeer fun _ busy => busy.enter entered

theorem queue {n : Network} (busy : n.Busy i id c texts) (j : Nat) (id' : ConnectionId)
    (waits : Bool) :
    (n.queue j id' waits).Busy i id c texts :=
  Busy.of_servers (busy.modifyPeer fun _ _ _ busy => busy.pushSlot id'
    (if waits then some n.nextTicket else none)) rfl

theorem send (j : Nat) (id' : ConnectionId) (text : String) (waits : Bool) :
    KeepsBusy i id c texts (Network.send j id' text waits) := by
  intro n busy
  have queued : (n.queue j id' waits).Busy i id c texts := queue busy j id' waits
  unfold Network.send
  cases opened : (n.peer j).remote id' with
  | error fault => exact busy
  | ok remote =>
      dsimp only
      cases n.write remote.link (Text.Utf8.encode text) with
      | error fault => exact queued.drop j id' _
      | ok frame =>
          refine (queued.modifyLink _ _).modifyPeer fun same t _ keeps => keeps.noteSent ?_ text
          subst same
          obtain ⟨s, found, busy⟩ := busy
          rw [Network.peer, found] at opened
          exact busy.peer.not_remote opened

theorem sending (j : Nat) (id' : Option ConnectionId) (text : String) (waits : Bool) :
    KeepsBusy i id c texts (Network.sending j id' text waits) := by
  cases id' with
  | some id' => exact send j id' text waits
  | none => exact bind (entered j) fun id' => send j id' text waits

theorem accept {n : Network} (busy : n.Busy i id c texts) (target : Target) :
    (n.accept target).1.Busy i id c texts := by
  cases target with
  | elsewhere => exact busy
  | remote port replies => exact busy.of_servers rfl
  | server j =>
      cases found : n.servers[j]? with
      | none =>
          rw [accept_absent found]
          exact busy
      | some s =>
          rw [accept_server found, modifyPeer, modifyServer_modifyServer]
          refine busy.modifyServer fun t there _ busy => ?_
          obtain rfl : s = t := Option.some.inj (found.symm.trans there)
          have other : Seat.connection s.peer.nextId ≠ .connection id := fun same =>
            Nat.ne_of_gt busy.peer.numbered (Seat.connection.inj same)
          have added : Server.IsBusy id c texts { s with peer := (s.peer.add none).1 } :=
            ⟨busy.running, busy.peer.add none⟩
          exact added.seated other

theorem connect (j : Nat) (host : String) (port : Nat) :
    KeepsBusy i id c texts (Network.connect j host port) := by
  intro n busy
  unfold Network.connect
  cases n.reach host port with
  | error fault => exact busy
  | ok target =>
      have added : (n.modifyPeer j fun _ => ((n.peer j).add (some ⟨n.links.size, .empty⟩)).1).Busy
          i id c texts :=
        busy.setPeer fun _ busy => busy.add _
      exact (accept added target).of_servers rfl

end Act.KeepsBusy

/-! ## The objects -/

section Methods

variable {m : Machine Network}

theorem busy_withShared {j : Nat} {d : Common Network} (h : d.world.Busy i id c texts) :
    (withShared j d).Busy i id c texts := h.modified (fun _ => rfl) fun _ => rfl

theorem world_sharedIn (j : Nat) (d : Common Network) (n : Network) :
    (sharedIn j d n).world = n := by
  unfold sharedIn
  cases n.servers[j]? <;> rfl

theorem keeps_acting {α : Type} {j : Nat} {act : Act α} (keeps : act.KeepsBusy i id c texts)
    {next : α → Method Network} (busy : m.common.world.Busy i id c texts)
    (rest : ∀ a (m' : Machine Network), m'.common.world.Busy i id c texts →
      (next a).Keeps (Busy i id c texts) m') :
    (acting j act next).Keeps (Busy i id c texts) m := by
  have shared : (withShared j m.whole).Busy i id c texts := busy_withShared (d := m.whole) busy
  have acted := keeps _ shared
  change (match act (withShared j m.whole) with
    | .ok a n => Method.change (sharedIn j · n) (next a)
    | .error fault n => .change (sharedIn j · n) (.fail fault)).Keeps (Busy i id c texts) m
  cases ran : act (withShared j m.whole) with
  | ok a n' =>
      rw [ran] at acted
      have changed : (sharedIn j m.whole n').world.Busy i id c texts :=
        (world_sharedIn j m.whole n').symm ▸ acted
      exact ⟨changed, rest a _ changed⟩
  | error fault n' =>
      rw [ran] at acted
      have changed : (sharedIn j m.whole n').world.Busy i id c texts :=
        (world_sharedIn j m.whole n').symm ▸ acted
      exact ⟨changed, trivial⟩

variable {settle : Network → Network}
  (settles : ∀ n : Network, n.Busy i id c texts → (settle n).Busy i id c texts)

include settles

theorem busy_whileWaiting {d : Common Network} (h : d.world.Busy i id c texts) (j : Nat)
    (session : Session) :
    (whileWaiting settle j session d).world.Busy i id c texts := by
  unfold whileWaiting
  split
  · exact h
  · rw [world_sharedIn]
    have awaiting : ((withShared j d).modifyServer j (·.awaiting session)).Busy i id c texts :=
      (busy_withShared h).modified (fun _ => rfl) fun _ => rfl
    exact (settles _ awaiting).modified (fun _ => rfl) fun _ => rfl

theorem keeps_peerMethod (j : Nat) (call : PeerCall) (busy : m.common.world.Busy i id c texts) :
    (peerMethod settle j call).Keeps (Busy i id c texts) m := by
  cases call with
  | connect host port => exact keeps_acting (.connect j host port) busy fun _ _ _ => trivial
  | enter id' => exact keeps_acting (.enter j id') busy fun _ _ _ => trivial
  | leave =>
      change (acting j (Network.leave j) fun left => .give (.bool left.isSome)).Keeps
        (Busy i id c texts) m
      exact keeps_acting (.leave j) busy fun _ _ _ => trivial
  | execute text => exact keeps_acting (.sending j none text false) busy fun _ _ _ => trivial
  | executeTree t => exact keeps_acting (.sending j none _ false) busy fun _ _ _ => trivial
  | clients => trivial
  | request id' text =>
      refine keeps_acting (.sending j id' text true) busy fun ticket m' busy' => ?_
      refine ⟨busy_whileWaiting settles (d := m'.whole) busy' j m'.session, ?_⟩
      unfold Method.Keeps
      dsimp only
      split <;> trivial

/-- The objects of all servers keep a connection busy whose session runs. -/
theorem hostWith_keeps : (hostWith settle).Keeps (Busy i id c texts) := by
  intro o name args m busy
  change (if o.typeName = peerName then _ else _ : Method Network).Keeps _ m
  split
  · split
    · exact keeps_peerMethod settles _ _ busy
    · trivial
  · split
    · rename_i call _
      cases call with
      | port => exact keeps_acting (.boundPort _) busy fun _ _ _ => trivial
      | stop =>
          have stopped : (m.common.world.modifyServer o.serial Server.stop).Busy i id c texts :=
            busy.modified (fun _ => rfl) fun _ => rfl
          exact ⟨stopped, trivial⟩
    · trivial

end Methods

/-! ## Steps of a network -/

section Steps

variable {host : Host Network} (keeps : host.Keeps (Busy i id c texts)) (h : n.Busy i id c texts)

include keeps h

/-- The session of the connection is not idle, so it is another one that runs. -/
theorem busy_evaluate (j : Nat) (seat : Seat) (text : String) :
    (evaluate host n j seat text).1.Busy i id c texts := by
  cases found : n.servers[j]? with
  | none =>
      have step : evaluate host n j seat text = (n, .error .unfinished) := by
        simp only [evaluate, found]
      rw [step]
      exact h
  | some s =>
      cases idle : s.idle.lookup seat with
      | none =>
          have step : evaluate host n j seat text = (n, .error .unfinished) := by
            simp only [evaluate, found, running, idle]
          rw [step]
          exact h
      | some session =>
          have other : j = i → seat ≠ .connection id := by
            rintro rfl rfl
            obtain ⟨t, there, busy⟩ := h
            obtain rfl : s = t := Option.some.inj (found.symm.trans there)
            cases idle.symm.trans busy.running
          have vacant : (n.machineOf j s seat session).common.world.Busy i id c texts := by
            rw [world_machineOf]
            refine h.modifyServer fun t there _ busy => ?_
            obtain rfl : s = t := Option.some.inj (found.symm.trans there)
            exact busy.vacated seat
          have ran := keeps_answer keeps s.settings.language s.settings.stackPolicy text _ vacant
          have back : ∀ {m : Machine Network}, m.common.world.Busy i id c texts →
              (seatedAgain j seat m).Busy i id c texts := fun {m} busy =>
            busy.modifyServer fun _ _ same busy => busy.put (other same) rfl rfl
          rw [evaluate_eq host text found idle]
          cases ended : answer host s.settings.language s.settings.stackPolicy text
              (n.machineOf j s seat session) <;>
            rw [ended] at ran <;> exact back ran

theorem busy_receive {α : Type} (write : Bytes → Except Fault α) {j : Nat} {id' : ConnectionId}
    (other : j = i → id' ≠ id) (text : String) :
    (receive host write n j id' text).1.Busy i id c texts := by
  have noted : (n.modifyPeer j (·.noteReceived id' text)).Busy i id c texts :=
    h.modifyPeer fun same _ _ busy => busy.noteReceived (other same) text
  have ran := busy_evaluate keeps noted j (.connection id') text
  unfold receive
  generalize evaluate host (n.modifyPeer j (·.noteReceived id' text)) j
    (.connection id') text = result at ran ⊢
  have raised : ∀ {n' : Network}, n'.Busy i id c texts →
      (n'.modifyPeer j (·.raise (.request id' text))).Busy i id c texts := fun busy =>
    busy.modifyPeer fun same _ _ busy => busy.raise (if_neg (other same))
  obtain ⟨n', stop | reply⟩ := result
  · exact ran
  · dsimp only at ran ⊢
    cases write (Text.Utf8.encode reply) with
    | error fault => exact raised ran
    | ok a => exact raised (ran.modifyPeer fun same _ _ busy => busy.noteSent (other same) reply)

theorem busy_serveStep {n' : Network} (k : Nat) (side : Side) (j : Nat) (id' : ConnectionId)
    (arrival : Arrival) (step : serveStep? host n k side j id' arrival = some n') :
    n'.Busy i id c texts := by
  unfold serveStep? at step
  split at step
  · exact nomatch step
  rename_i seated
  have other : j = i → id' ≠ id := by
    rintro rfl rfl
    obtain ⟨s, found, busy⟩ := h
    rw [found] at seated
    exact seated (Option.isNone_iff_eq_none.mpr busy.running)
  cases arrival with
  | pending => exact nomatch step
  | ended fault =>
      cases step
      exact h.hangUp k side j id' _
  | message bytes rest =>
      have received := busy_receive keeps (h.modifyLink k (·.leave side rest))
        ((n.modifyLink k (·.leave side rest)).write k) other (textOf bytes)
      dsimp only at step
      split at step
      · rename_i n₁ _ _ known
        rw [known] at received
        cases step
        exact received.modifyLink _ _
      · rename_i n₁ _ _ known
        rw [known] at received
        cases step
        exact received.hangUp k side j id' _
      · rename_i n₁ stop known
        rw [known] at received
        split at step
        · cases step
          exact received.vacated j _
        · cases step
          exact (received.vacated j _).modifyLink _ _

omit keeps in
theorem busy_readStep {n' : Network} (k : Nat) (side : Side) (j : Nat)
    {id' : ConnectionId} {e : Client} {remote : Remote}
    (found : (n.peer j).find? id' = some ⟨e, some remote⟩) (arrival : Arrival)
    (step : n.readStep? k side j id' arrival = some n') : n'.Busy i id c texts := by
  cases arrival with
  | pending => exact nomatch step
  | ended fault =>
      cases step
      exact (h.drop j id' _).modifyLink _ _
  | message bytes rest =>
      cases step
      refine Busy.of_servers
        (n := n.modifyPeer j fun _ => ((n.peer j).respond id' (textOf bytes)).1) ?_ rfl
      exact h.setPeer fun _ busy => busy.respond found (textOf bytes)

omit keeps in
theorem busy_remoteStep {n' : Network} (k : Nat) (side : Side) (replies : List Bytes)
    (arrival : Arrival) (step : n.remoteStep? k side replies arrival = some n') :
    n'.Busy i id c texts := by
  cases arrival with
  | pending => exact nomatch step
  | ended fault =>
      cases step
      exact h.modifyLink _ _
  | message bytes rest =>
      cases replies <;> cases step <;> exact h.modifyLink _ _

theorem busy_endStep {n' : Network} (k : Nat) (side : Side)
    (step : endStep? host n k side = some n') :
    n'.Busy i id c texts := by
  unfold endStep? at step
  split at step
  · exact nomatch step
  split at step
  · split at step
    · exact nomatch step
    · exact busy_remoteStep h k side _ _ step
    · rename_i j id' _
      split at step
      · cases step
        exact (h.vacated j _).modifyLink _ _
      · rename_i found
        exact busy_readStep h k side j found _ step
      · exact busy_serveStep keeps h k side _ _ _ step
  · exact nomatch step

theorem busy_step {n' : Network} (step : step? host n = some n') : n'.Busy i id c texts := by
  obtain ⟨k, -, found⟩ := List.exists_of_findSome?_eq_some step
  obtain ⟨side, -, found⟩ := List.exists_of_findSome?_eq_some found
  exact busy_endStep keeps h k side found

end Steps

/-- However long a network goes on, a connection whose session runs is left alone. -/
theorem busy_settleFor (steps : Nat) (n : Network) (h : n.Busy i id c texts) :
    (settleFor steps n).Busy i id c texts := by
  induction steps generalizing n with
  | zero => exact h
  | succ steps ih =>
      rw [settleFor]
      split
      · exact h
      · rename_i n' step
        exact ih n' (busy_step (hostWith_keeps ih) h step)

theorem host_keeps (i : Nat) (id : ConnectionId) (c : Client) (texts : List String) :
    host.Keeps (Busy i id c texts) := hostWith_keeps (busy_settleFor patience)

end Network

end PeerScript
