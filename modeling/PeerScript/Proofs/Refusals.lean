import PeerScript.Proofs.Bookkeeping
import PeerScript.Proofs.Losses

/-!
# Methods of the peer that fail

A method of the peer that refuses what it is asked for has done nothing: its arguments do not fit,
there is no such method, the connection is not there or cannot be sent to, or nobody answers at the
address that is to be connected.  A text that cannot be written is another matter: its connection
goes, and only that one.

Whether a text can be written is decided by the surroundings of the network, so that every way in
which writing may fail is covered.
-/

set_option autoImplicit false

namespace PeerScript.Network

open Service (Server PeerCall peerName)
open Peer (ConnectionId Event Remote)
open Wire (Bytes)

/-! ## Methods of the peer -/

/-- The method of a name of the peer, called with arguments. -/
theorem method_peer (settle : Network → Network) (i : Nat) (name : String) (args : List Value) :
    (hostWith settle).method ⟨peerName, i⟩ name args =
      match PeerCall.ofArgs name args with
      | .ok call => peerMethod settle i call
      | .error fault => .fail fault := by
  unfold hostWith
  dsimp only
  exact if_pos rfl

/-- A session that has sent a request waits for the response. -/
def response (settle : Network → Network) (i : Nat) (ticket : Wire.Ticket) : Method Network :=
  .look fun session _ =>
    .change (whileWaiting settle i session) <|
      .look fun _ common =>
        match common.world.outcome? ticket with
        | some (.ok response) => .give (.str response)
        | some (.error fault) => .fail fault
        | none => .stuck

theorem peerMethod_request (settle : Network → Network) (i : Nat) (id : Option ConnectionId)
    (text : String) :
    peerMethod settle i (.request id text) = acting i (sending i id text true)
      (response settle i) := rfl

/-! ## Acts that refuse -/

variable {n n' : Network} {i : Nat} {id : ConnectionId} {text : String} {waits : Bool}
  {fault : Fault}

theorem enter_refuses {id : Option ConnectionId} (failed : enter i id n = .error fault n') :
    n' = n := by
  unfold enter at failed
  split at failed <;> cases failed
  rfl

theorem connect_refuses {host : String} {port : Nat}
    (failed : connect i host port n = .error fault n') :
    n' = n := by
  unfold connect at failed
  split at failed <;> cases failed
  rfl

theorem leave_succeeds (failed : leave i n = .error fault n') : False := nomatch failed

/-- The connection to which a text goes. -/
def addressed (n : Network) (i : Nat) (id : Option ConnectionId) : Except Fault ConnectionId :=
  match id with
  | some id => .ok id
  | none => (n.peer i).enteredOrFault

theorem sending_eq (id : Option ConnectionId) : sending i id text waits n =
    match n.addressed i id with
    | .ok id => send i id text waits n
    | .error fault => .error fault n := by
  cases id with
  | some id => rfl
  | none => exact Act.KeepsLosses.sending_none i text waits n

/-- The network behind a text that could not be written. -/
def withoutSent (n : Network) (i : Nat) (id : ConnectionId) (waits : Bool) : Network :=
  ((n.queue i id waits).close i id).1

/-- Sending fails before anything is done, or because the text cannot be written. -/
theorem sending_fails {id : Option ConnectionId}
    (failed : sending i id text waits n = .error fault n') :
    n' = n ∨ ∃ k, n.write k (Text.Utf8.encode text) = .error fault := by
  rw [sending_eq] at failed
  split at failed
  · unfold send at failed
    split at failed
    · cases failed
      exact .inl rfl
    · split at failed
      · rename_i why
        cases failed
        exact .inr ⟨_, why⟩
      · exact nomatch failed
  · cases failed
    exact .inl rfl

theorem outcomes_of_sending {id : Option ConnectionId} {ticket : Wire.Ticket}
    (sent : sending i id text waits n = .ok ticket n') : n'.outcomes = n.outcomes := by
  rw [sending_eq] at sent
  split at sent
  · unfold send at sent
    split at sent
    · exact nomatch sent
    · split at sent
      · exact nomatch sent
      · cases sent
        rfl
  · exact nomatch sent

theorem sending_unwritten {chosen : Option ConnectionId} {remote : Remote}
    (goes : n.addressed i chosen = .ok id) (there : (n.peer i).remote id = .ok remote)
    (failed : n.write remote.link (Text.Utf8.encode text) = .error fault) :
    sending i chosen text waits n = .error fault (n.withoutSent i id waits) := by
  rw [sending_eq, goes]
  dsimp only
  rw [send, there]
  dsimp only
  rw [failed]
  rfl

/-! ## Tables behind an act -/

theorem peer_withShared (c : Common Network) (j : Nat) : (withShared i c).peer j = c.world.peer j :=
  peer_modifyServer (fun s _ => (rfl : (s.reclaim c).peer = s.peer)) j

/-- A connection is one of a server. -/
theorem server_of_remote {remote : Remote} (there : (n.peer i).remote id = .ok remote) :
    ∃ s, n.servers[i]? = some s := by
  cases found : n.servers[i]? with
  | some s => exact ⟨s, rfl⟩
  | none =>
      rw [peer, found] at there
      cases there

theorem erase_update {α β : Type} [DecidableEq α] (key : α) (change : β → β)
    (table : List (α × β)) :
    Association.erase key (Association.update key change table) = Association.erase key table := by
  unfold Association.erase Association.update
  induction table with
  | nil => rfl
  | cons p ps ih =>
      by_cases same : p.1 = key
      · simpa [same] using ih
      · simpa [same] using ih

/-- A connection has gone, and nothing else has happened to the table. -/
structure Parted (id : ConnectionId) (t t' : Peer.Table) : Prop where
  there : (t.find? id).isSome
  entries : t'.entries = Association.erase id t.entries
  entered : t'.entered = if t.entered = some id then none else t.entered
  events : t'.events = t.events ++ [.disconnected id]
  nextId : t'.nextId = t.nextId

namespace Parted

variable {t t' : Peer.Table}

theorem drop (there : (t.find? id).isSome) (reason : String) :
    Parted id t (t.drop id reason).1 := by
  obtain ⟨entry, found⟩ := Option.isSome_iff_exists.mp there
  unfold Peer.Table.drop Peer.Table.remove
  rw [found]
  exact ⟨there, rfl, rfl, rfl, rfl⟩

/-- A slot goes with its connection. -/
theorem of_pushSlot {slot : Wire.Slot} (h : Parted id (t.pushSlot id slot) t') :
    Parted id t t' where
  there := by
    have there := h.there
    rw [Peer.Table.pushSlot, Peer.Table.find?_update, if_pos rfl, Option.isSome_map] at there
    exact there
  entries := by
    rw [h.entries]
    exact erase_update id
      (fun e => { e with remote := e.remote.map fun r => { r with pending := r.pending.push slot }
        }) t.entries
  entered := h.entered
  events := h.events
  nextId := h.nextId

end Parted

theorem parted_withoutSent {remote : Remote} (there : (n.peer i).remote id = .ok remote) :
    Parted id (n.peer i) ((n.withoutSent i id waits).peer i) := by
  obtain ⟨s, found⟩ := server_of_remote there
  have live : ((n.peer i).find? id).isSome := by
    unfold Peer.Table.remote at there
    split at there
    · rename_i known
      exact known ▸ rfl
    · exact nomatch there
    · exact nomatch there
  let slot : Wire.Slot := if waits then some n.nextTicket else none
  have same : n.peer i = s.peer := peer_of_found found
  have queued : (n.queue i id waits).peer i = s.peer.pushSlot id slot :=
    peer_modifyPeer found (·.pushSlot id slot)
  have found' : (n.queue i id waits).servers[i]? =
      some { s with peer := s.peer.pushSlot id slot } :=
    servers_modifyPeer found (·.pushSlot id slot)
  have behind : (n.withoutSent i id waits).peer i =
      ((s.peer.pushSlot id slot).drop id Wire.connectionClosed).1 := by
    rw [← queued]
    exact peer_modifyPeer found' fun _ =>
      (((n.queue i id waits).peer i).drop id Wire.connectionClosed).1
  rw [same] at live ⊢
  rw [behind]
  refine Parted.of_pushSlot (.drop ?_ _)
  rw [Peer.Table.pushSlot, Peer.Table.find?_update, if_pos rfl, Option.isSome_map]
  exact live

theorem peer_withoutSent_of_ne {j : Nat} (other : j ≠ i) :
    (n.withoutSent i id waits).peer j = n.peer j := by
  have queued : (n.queue i id waits).peer j = n.peer j := peer_modifyServer_of_ne other
  rw [← queued]
  exact peer_modifyServer_of_ne (n := n.queue i id waits) other

theorem storeOf_withoutSent (j : Nat) : (n.withoutSent i id waits).storeOf j = n.storeOf j := by
  have queued : (n.queue i id waits).storeOf j = n.storeOf j :=
    storeOf_modifyPeer (n := n) (·.pushSlot id (if waits then some n.nextTicket else none)) j
  rw [← queued]
  exact storeOf_modifyPeer (n := n.queue i id waits)
    (fun _ => (((n.queue i id waits).peer i).drop id Wire.connectionClosed).1) j

/-! ## Methods -/

section Methods

variable {level : Inside Network} {m m' : Machine Network}

theorem runMethod_acting {α : Type} (act : Act α) (next : α → Method Network) :
    runMethod level (acting i act next) m =
      match act (withShared i m.whole) with
      | .ok a n => runMethod level (next a) (m.changed (sharedIn i m.whole n))
      | .error fault n => .error (.failed fault) (m.changed (sharedIn i m.whole n)) := by
  change runMethod level (match act (withShared i m.whole) with
    | .ok a n => Method.change (sharedIn i · n) (next a)
    | .error fault n => .change (sharedIn i · n) (.fail fault)) m = _
  cases act (withShared i m.whole) <;> rfl

/-- The session, what is bound, and the connections of all servers are as they were. -/
structure Untouched (m m' : Machine Network) : Prop where
  session : m'.session = m.session
  store : m'.common.store = m.common.store
  peer : ∀ j, m'.common.world.peer j = m.common.world.peer j
  links : m'.common.world.links = m.common.world.links
  outcomes : m'.common.world.outcomes = m.common.world.outcomes

theorem Untouched.refl (m : Machine Network) : Untouched m m := ⟨rfl, rfl, fun _ => rfl, rfl, rfl⟩

theorem store_sharedIn (i : Nat) (c : Common Network) (n : Network) :
    (sharedIn i c n).store = (n.storeOf i).getD c.store := by
  unfold sharedIn storeOf
  cases n.servers[i]? <;> rfl

theorem storeOf_withShared (i : Nat) (c : Common Network) :
    ((withShared i c).storeOf i).getD c.store = c.store := by
  rw [storeOf, withShared, modifyServer, Array.getElem?_modify, if_pos rfl]
  cases c.world.servers[i]? <;> rfl

/-- The network gets to know what the session shares with others, and nothing else happens. -/
theorem untouched_shared (i : Nat) (m : Machine Network) :
    Untouched m (m.changed (sharedIn i m.whole (withShared i m.whole))) where
  session := rfl
  store := (store_sharedIn i m.whole _).trans (storeOf_withShared i m.whole)
  peer j := by
    change (sharedIn i m.whole (withShared i m.whole)).world.peer j = _
    rw [world_sharedIn]
    exact peer_withShared m.whole j
  links := by
    change (sharedIn i m.whole (withShared i m.whole)).world.links = _
    rw [world_sharedIn]
    rfl
  outcomes := by
    change (sharedIn i m.whole (withShared i m.whole)).world.outcomes = _
    rw [world_sharedIn]
    rfl

/-- A connection of a server has gone.  The session, what is bound, and the connections of all other
servers are as they were. -/
structure Dropped (i : Nat) (id : ConnectionId) (m m' : Machine Network) : Prop where
  session : m'.session = m.session
  store : m'.common.store = m.common.store
  peer : Parted id (m.common.world.peer i) (m'.common.world.peer i)
  others : ∀ j, j ≠ i → m'.common.world.peer j = m.common.world.peer j

theorem dropped_withoutSent {remote : Remote}
    (there : (m.common.world.peer i).remote id = .ok remote) :
    Dropped i id m
      (m.changed (sharedIn i m.whole ((withShared i m.whole).withoutSent i id waits))) := by
  have same : ∀ j, (withShared i m.whole).peer j = m.common.world.peer j := peer_withShared m.whole
  generalize left : (withShared i m.whole).withoutSent i id waits = n'
  have world : (m.changed (sharedIn i m.whole n')).common.world = n' := world_sharedIn i m.whole n'
  refine ⟨rfl, ?_, ?_, fun j other => ?_⟩
  · change (sharedIn i m.whole n').store = _
    rw [store_sharedIn, ← left, storeOf_withoutSent]
    exact storeOf_withShared i m.whole
  · rw [world, ← same i, ← left]
    exact parted_withoutSent (same i ▸ there)
  · rw [world, ← same j, ← left]
    exact peer_withoutSent_of_ne other

/-! ## The peer -/

/-- A fault with which a method refuses what it is asked for. -/
def Refuses (name : String) : Fault → Prop
  | .arity .. | .typeError _ | .unknownMember .. | .notConnected _ => True
  | .transport _ => name = "Connect"
  | _ => False

/-- Which text a method sends, and to which connection it is told to send it. -/
def message? (m : Machine Network) : PeerCall → Option (Option ConnectionId × String)
  | .execute text => some (none, text)
  | .executeTree tree =>
    some (none, (Encoder.mk m.session.registry (describe m.common.world)).render tree)
  | .request id text => some (id, text)
  | _ => none

theorem asks_connect {name : String} {args : List Value} {call : PeerCall}
    (asks : PeerCall.ofArgs name args = .ok call) (named : name = "Connect") :
    ∃ host port, call = .connect host port := by
  unfold PeerCall.ofArgs at asks
  split at asks
  · split at asks
    · split at asks <;> cases asks
      exact ⟨_, _, rfl⟩
    · exact nomatch asks
    · exact nomatch asks
  all_goals first
    | exact absurd named (by decide)
    | exact absurd named ‹_›

theorem runMethod_look (next : Session → Common Network → Method Network) :
    runMethod level (.look next) m = runMethod level (next m.session m.whole) m := rfl

/-- A function is sent as its text. -/
theorem runMethod_executeTree {settle : Network → Network} (tree : Tree) :
    runMethod level (peerMethod settle i (.executeTree tree)) m =
      runMethod level (acting i (sending i none
        ((Encoder.mk m.session.registry (describe m.common.world)).render tree) false) fun _ =>
    .done) m := by
  rw [peerMethod, runMethod_look]
  rfl

/-- A method fails because its act does, or later on. -/
theorem untouched_of_acting {α : Type} {act : Act α} {next : α → Method Network}
    (ran : runMethod level (acting i act next) m = .error (.failed fault) m')
    (refuses : ∀ {n'}, act (withShared i m.whole) = .error fault n' → n' = withShared i m.whole)
    (succeeds : ∀ {a n'}, act (withShared i m.whole) = .ok a n' →
      runMethod level (next a) (m.changed (sharedIn i m.whole n')) ≠ .error (.failed fault) m') :
    Untouched m m' := by
  rw [runMethod_acting] at ran
  cases acted : act (withShared i m.whole) with
  | error why n' =>
      rw [acted] at ran
      cases ran
      rw [refuses acted]
      exact untouched_shared i m
  | ok a n' =>
      rw [acted] at ran
      exact absurd ran (succeeds acted)

/-- A request that has been sent fails only because its connection goes away. -/
theorem transport_of_waiting {settle : Network → Network}
    (settles : ∀ n : Network, n.OnlyLosses → (settle n).OnlyLosses) {ticket : Wire.Ticket}
    (losses : m.common.world.OnlyLosses)
    (ran : runMethod level (response settle i ticket) m = .error (.failed fault) m') :
    ∃ reason, fault = .transport reason := by
  have waited : (whileWaiting settle i m.session m.whole).world.OnlyLosses :=
    onlyLosses_whileWaiting settles (c := m.whole) losses i m.session
  change runMethod level (match (whileWaiting settle i m.session m.whole).world.outcome? ticket with
    | some (.ok response) => .give (.str response)
    | some (.error fault) => .fail fault
    | none => .stuck) _ = _ at ran
  cases ended : (whileWaiting settle i m.session m.whole).world.outcome? ticket with
  | none =>
      rw [ended] at ran
      exact nomatch ran
  | some result =>
      rw [ended] at ran
      cases result with
      | ok response => exact nomatch ran
      | error why =>
          cases ran
          exact waited.outcome? ended

/-- What a method refuses, it has not begun. -/
theorem peer_refuses {settle : Network → Network}
    (settles : ∀ n : Network, n.OnlyLosses → (settle n).OnlyLosses)
    (losses : m.common.world.OnlyLosses) {name : String} {args : List Value}
    (ran : runMethod level ((hostWith settle).method ⟨peerName, i⟩ name args) m =
      .error (.failed fault) m') (refuses : Refuses name fault) : Untouched m m' := by
  rw [method_peer] at ran
  cases asks : PeerCall.ofArgs name args with
  | error why =>
      rw [asks] at ran
      cases ran
      exact .refl m
  | ok call =>
      rw [asks] at ran
      dsimp only at ran
      -- a broken connection is a refusal only of the method that connects
      have unbroken : (∀ host port, call ≠ .connect host port) → ∀ reason, fault ≠
          .transport reason := by
        rintro other reason rfl
        obtain ⟨host, port, is⟩ := asks_connect asks refuses
        exact other host port is
      have unsent : (∀ host port, call ≠ .connect host port) → ∀ {id text waits n'},
          sending i id text waits (withShared i m.whole) = .error fault n' →
            n' = withShared i m.whole := by
        intro other id text waits n' failed
        refine (sending_fails failed).resolve_right fun ⟨_, unwritten⟩ => ?_
        rcases write_fails unwritten with ⟨reason, is⟩ | ⟨reason, rfl⟩
        · exact unbroken other reason is
        · exact refuses
      cases call with
      | connect host port => exact untouched_of_acting ran connect_refuses fun _ => nofun
      | enter id => exact untouched_of_acting ran enter_refuses fun _ => nofun
      | leave =>
          have left : runMethod level (acting i (leave i) fun left => .give (.bool left.isSome)) m =
              _ := ran
          exact untouched_of_acting left (fun failed => (leave_succeeds failed).elim) fun _ => nofun
      | clients => exact nomatch ran
      | execute text => exact untouched_of_acting ran (unsent nofun) fun _ => nofun
      | executeTree tree =>
          exact untouched_of_acting ((runMethod_executeTree tree).symm.trans ran)
            (unsent nofun) fun _ => nofun
      | request id text =>
          rw [peerMethod_request] at ran
          refine untouched_of_acting ran (unsent nofun) fun {ticket n'} sent waited => ?_
          have sentLosses : n'.OnlyLosses :=
            OnlyLosses.of_outcomes (n := m.common.world) losses
              ((outcomes_of_sending sent).trans rfl)
          obtain ⟨reason, is⟩ := transport_of_waiting settles
            (m := m.changed (sharedIn i m.whole n'))
            ((world_sharedIn i m.whole n').symm ▸ sentLosses) waited
          exact unbroken nofun reason is

/-- A text that cannot be written takes its connection away. -/
theorem peer_unwritten {settle : Network → Network} {name : String} {args : List Value}
    {call : PeerCall} {chosen : Option ConnectionId} {text : String} {remote : Remote}
    (asks : PeerCall.ofArgs name args = .ok call) (sends : message? m call = some (chosen, text))
    (goes : m.common.world.addressed i chosen = .ok id)
    (there : (m.common.world.peer i).remote id = .ok remote)
    (failed : m.common.world.write remote.link (Text.Utf8.encode text) = .error fault) :
    ∃ m', runMethod level ((hostWith settle).method ⟨peerName, i⟩ name args) m =
      .error (.failed fault) m' ∧ Dropped i id m m' := by
  have goes' : (withShared i m.whole).addressed i chosen = .ok id := by
    unfold addressed at goes ⊢
    rwa [peer_withShared m.whole i]
  have there' : ((withShared i m.whole).peer i).remote id = .ok remote :=
    (peer_withShared m.whole i).symm ▸ there
  have step : ∀ (waits : Bool) (next : Wire.Ticket → Method Network),
      runMethod level (acting i (sending i chosen text waits) next) m = .error (.failed fault)
        (m.changed (sharedIn i m.whole ((withShared i m.whole).withoutSent i id waits))) := by
    intro waits next
    rw [runMethod_acting, sending_unwritten goes' there' failed]
  rw [method_peer, asks]
  cases call with
  | connect | enter | leave | clients => exact nomatch sends
  | execute => cases sends; exact ⟨_, step false _, dropped_withoutSent there⟩
  | executeTree tree =>
      cases sends
      exact ⟨_, (runMethod_executeTree tree).trans (step false _), dropped_withoutSent there⟩
  | request => cases sends; exact ⟨_, step true _, dropped_withoutSent there⟩

end Methods

/-- **A refused method changes nothing.**  When a method of a peer fails because its arguments do
not fit, because there is no such method or no such connection, or because a connection cannot be
made, the session, what is bound, and all connections with what was reported of them are as they
were.  When a text cannot be written, the method fails for this reason, and its connection has gone:
it alone, reported once, and no longer entered. -/
theorem refusals_harmless (steps i : Nat) (level : Inside Network) (m : Machine Network)
    (losses : m.common.world.OnlyLosses) (name : String) (args : List Value) :
    (∀ fault m', runMethod level ((hostWith (settleFor steps)).method ⟨peerName, i⟩ name args) m =
      .error (.failed fault) m' → Refuses name fault → Untouched m m') ∧
    ∀ call chosen text id remote fault, PeerCall.ofArgs name args = .ok call →
      message? m call = some (chosen, text) → m.common.world.addressed i chosen = .ok id →
      (m.common.world.peer i).remote id = .ok remote →
      m.common.world.write remote.link (Text.Utf8.encode text) = .error fault →
      ∃ m', runMethod level ((hostWith (settleFor steps)).method ⟨peerName, i⟩ name args) m =
        .error (.failed fault) m' ∧ Dropped i id m m' := by
  constructor
  · intro fault m' ran refuses
    exact peer_refuses (onlyLosses_settleFor steps) losses ran refuses
  · intro call chosen text id remote fault asks sends goes there failed
    exact peer_unwritten asks sends goes there failed

/-! ## A pipe that breaks -/

/-- A machine by itself on which nothing can be written. -/
def brokenPipe : Surroundings :=
  { Surroundings.loopback with breaks := fun _ _ => some (.body "Broken pipe") }

/-- A server by itself that has entered its only connection. -/
def clinging : Network :=
  { amid brokenPipe with
    servers := #[{
      settings := .loopback, registry := .standard, globals := 0, store := .empty, serial :=
        0, printed := []
      idle := [], held := [], watched := []
      peer := { ((Peer.Table.new 10).add (some ⟨0, .empty⟩)).1 with entered := some 1 }
      stopping := false, port := none, listening := [] }] }

/-- A connection that is not there cannot be entered; the one that is there goes when a script
cannot be sent. -/
theorem refusals_harmless_broken : ∃ m : Machine Network, m.common.world = clinging ∧
    (∃ m', runMethod ⟨fun _ _ => throw .unfinished, fun _ _ _ _ => throw .unfinished⟩
      ((hostWith (settleFor 0)).method ⟨peerName, 0⟩ "Enter" [.int 7]) m =
        .error (.failed (Peer.Table.noConnection 7)) m' ∧ Untouched m m') ∧
    ∃ m', runMethod ⟨fun _ _ => throw .unfinished, fun _ _ _ _ => throw .unfinished⟩
      ((hostWith (settleFor 0)).method ⟨peerName, 0⟩ "Execute" [.str "1"]) m =
        .error (.failed (.transport "TCP write data failed: Broken pipe")) m' ∧
        Dropped 0 1 m m' := by
  let m : Machine Network := ⟨.new .standard 0, .new clinging⟩
  have harmless := fun name args => refusals_harmless 0 0
    ⟨fun _ _ => throw .unfinished, fun _ _ _ _ => throw .unfinished⟩ m nofun name args
  have failed : m.common.world.write 0 (Text.Utf8.encode "1") =
      .error (.transport "TCP write data failed: Broken pipe") := by cbv
  refine ⟨m, rfl, ⟨_, rfl, (harmless "Enter" [.int 7]).1 _ _ rfl trivial⟩, ?_⟩
  exact (harmless "Execute" [.str "1"]).2 (.execute "1") none "1" 1
    ⟨0, .empty⟩ _ rfl rfl rfl rfl failed

end PeerScript.Network
