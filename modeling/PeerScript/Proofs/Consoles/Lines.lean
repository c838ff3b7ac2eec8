import PeerScript.Console
import PeerScript.Proofs.Refusals
import PeerScript.Proofs.Consoles

/-!
# Lines of a console

Whether a line runs here or goes to a remote is decided by the remote that is entered when the line
is typed.  This is no state of the console: scripts enter and leave remotes, also those on
connections, and a remote that goes away is left.  Yet the lines do not mix.  A line that goes to a
remote is one request, and the session of the console does not notice it; a line that runs here runs
in that session and is nowhere else.  So the session is what comes of the lines that were typed
while no remote was entered, one after another.

The way in which the network goes on while a line waits is not that of `Network.settle` alone, but
any one in which no line is typed meanwhile.
-/

set_option autoImplicit false

namespace PeerScript

open Service (Server Seat)
open Peer (ConnectionId)
open Wire (Bytes Ticket)

/-! ## Requests -/

namespace Peer.Table

variable {t : Table} {id other : ConnectionId}

theorem remote_eq_ok {remote : Remote} :
    t.remote id = .ok remote ↔ ∃ client, t.find? id = some ⟨client, some remote⟩ := by
  unfold Table.remote
  cases t.find? id with
  | none => exact ⟨nofun, nofun⟩
  | some e =>
      obtain ⟨client, _ | r⟩ := e
      · exact ⟨nofun, nofun⟩
      · simp

theorem remote_congr {t' : Table}
    (same : (t'.find? id).map Entry.remote = (t.find? id).map Entry.remote) :
    t'.remote id = t.remote id := by
  unfold Table.remote
  cases found : t.find? id with
  | none =>
      rw [found] at same
      cases found' : t'.find? id with
      | none => rfl
      | some e => rw [found'] at same; exact nomatch same
  | some e =>
      rw [found] at same
      cases found' : t'.find? id with
      | none => rw [found'] at same; exact nomatch same
      | some e' =>
          rw [found'] at same
          obtain ⟨client, remote⟩ := e
          obtain ⟨client', remote'⟩ := e'
          obtain rfl : remote' = remote := Option.some.inj same
          cases remote' <;> rfl

theorem remote_noteSent (t : Table) (id other : ConnectionId) (text : String) :
    (t.noteSent id text).remote other = t.remote other := by
  refine remote_congr ?_
  rw [noteSent, find?_update]
  split
  · rw [Option.map_map]
    rfl
  · rfl

theorem remote_pushSlot {remote : Remote} (there : t.remote id = .ok remote) (slot : Wire.Slot) :
    (t.pushSlot id slot).remote id = .ok { remote with pending := remote.pending.push slot } := by
  obtain ⟨client, found⟩ := remote_eq_ok.mp there
  refine remote_eq_ok.mpr ⟨client, ?_⟩
  rw [pushSlot, find?_update, if_pos rfl, found]
  rfl

theorem remote_pushSlot_of_ne (ne : other ≠ id) (slot : Wire.Slot) :
    (t.pushSlot id slot).remote other = t.remote other := by
  refine remote_congr ?_
  rw [pushSlot, find?_update, if_neg ne]

end Peer.Table

namespace Network

variable {n n' n'' : Network} {i : Nat} {id : ConnectionId} {text : String}

/-- One request more: its text is written on the link of the connection, and a slot waits for the
answer behind those that were waiting.  Nothing is written on other links, nobody else waits, and no
other server has changed. -/
structure Requests (n : Network) (i : Nat) (id : ConnectionId) (text : String) (n' : Network) :
    Prop where
  written : ∃ remote frame, (n.peer i).remote id = .ok remote ∧
    Wire.Frame.write (Text.Utf8.encode text) = .ok frame ∧
    n.surroundings.breaks remote.link (Text.Utf8.encode text) = none ∧
    n'.links = n.links.modify remote.link (·.write .opener frame) ∧
    (n'.peer i).remote id = .ok { remote with pending := remote.pending.push (some n.nextTicket) }
  others : ∀ other, other ≠ id → (n'.peer i).remote other = (n.peer i).remote other
  elsewhere : ∀ j, j ≠ i → n'.servers[j]? = n.servers[j]?
  outcomes : n'.outcomes = n.outcomes

theorem requests_of_send {ticket : Ticket} (sent : Network.send i id text true n = .ok ticket n') :
    ticket = n.nextTicket ∧ n.Requests i id text n' := by
  unfold Network.send at sent
  cases there : (n.peer i).remote id with
  | error fault =>
      rw [there] at sent
      exact nomatch sent
  | ok remote =>
      cases written : n.write remote.link (Text.Utf8.encode text) with
      | error fault =>
          rw [there] at sent
          dsimp only at sent
          rw [written] at sent
          exact nomatch sent
      | ok frame =>
          rw [there] at sent
          dsimp only at sent
          rw [written] at sent
          cases sent
          obtain ⟨framed, unbroken⟩ := write_eq_ok written
          obtain ⟨s, found⟩ := server_of_remote there
          have table : n.peer i = s.peer := peer_of_found found
          have queued : (n.queue i id true).servers[i]? =
              some { s with peer := s.peer.pushSlot id (some n.nextTicket) } :=
            servers_modifyPeer found (·.pushSlot id (some n.nextTicket))
          have noted :
              ((((n.queue i id true).modifyLink remote.link (·.write .opener frame)).modifyPeer i
              (·.noteSent id text)).peer i) =
              (s.peer.pushSlot id (some n.nextTicket)).noteSent id text :=
            peer_modifyPeer
              (n := (n.queue i id true).modifyLink remote.link (·.write .opener frame)) queued _
          refine ⟨rfl, ⟨remote, frame, there, framed, unbroken, rfl, ?_⟩, fun other ne => ?_,
            fun j other => ?_, rfl⟩
          · rw [noted, Peer.Table.remote_noteSent]
            exact Peer.Table.remote_pushSlot (table ▸ there) _
          · rw [noted, Peer.Table.remote_noteSent, Peer.Table.remote_pushSlot_of_ne ne, table]
          · exact (servers_modifyServer_of_ne (n := (n.queue i id true).modifyLink _ _)
              other _).trans (servers_modifyServer_of_ne other _)

/-- When a text cannot be sent, nothing is written. -/
theorem links_of_send_error {fault : Fault}
    (failed : Network.send i id text true n = .error fault n') :
    n'.links = n.links ∧
      ((n.peer i).remote id = .error fault ∨ ∃ remote, (n.peer i).remote id = .ok remote ∧
        n.write remote.link (Text.Utf8.encode text) = .error fault) := by
  unfold Network.send at failed
  cases there : (n.peer i).remote id with
  | error other =>
      rw [there] at failed
      cases failed
      exact ⟨rfl, .inl rfl⟩
  | ok remote =>
      rw [there] at failed
      dsimp only at failed
      cases written : n.write remote.link (Text.Utf8.encode text) with
      | error other =>
          rw [written] at failed
          cases failed
          exact ⟨rfl, .inr ⟨remote, rfl, written⟩⟩
      | ok frame =>
          rw [written] at failed
          exact nomatch failed

/-- A session that goes back to its seat as it has left it has not run. -/
theorem meanwhile_machineOf {seat : Seat} {s : Server} {session : Session}
    (seated : n.Seated i seat s session) :
    n.Meanwhile i seat (seatedAgain i seat (n.machineOf i s seat session)) := by
  have left : (n.machineOf i s seat session).common.world.servers[i]? = some (s.vacated seat) := by
    rw [world_machineOf]
    exact servers_modifyServer seated.found _
  refine ⟨s, _, session, seated,
    ⟨servers_modifyServer left _, (Association.lookup_put ..).trans (if_pos rfl)⟩, ?_⟩
  have store : (n.machineOf i s seat session).common.store = s.store := store_machineOf
  change session.Spared s.store (n.machineOf i s seat session).common.store
  rw [store]
  exact .refl _ _

end Network

/-! ## Lines -/

namespace Console

/-- A line that is typed: its text, the network in front of it, and the way in which the network
goes on while the line waits. -/
structure Turn where
  text : String
  before : Network
  settle : Network → Network

namespace Turn

variable (i : Nat) (t : Turn)

/-- The remote that is entered when the line is typed. -/
def entered : Option ConnectionId := (t.before.peer i).entered

/-- The network behind the line. -/
def after : Network := (lineWith t.settle ⟨t.before, i⟩ t.text).1.network

/-- What is shown for the line. -/
def shown : Except Stop String := (lineWith t.settle ⟨t.before, i⟩ t.text).2

/-- The text of a line that runs here. -/
def here? : Option String := if (t.entered i).isNone then some t.text else none

/-- The line has run in the session of the console; one that cannot be translated has changed
nothing there and has written nothing. -/
def RunsHere : Prop :=
  ∃ s session, t.before.Seated i .console s session ∧
    match translation .rho t.text (t.before.machineOf i s .console session) with
    | .error fault => t.shown i = .ok fault.errorText ∧ t.before.Meanwhile i .console (t.after i) ∧
        (t.after i).links = t.before.links
    | .ok (tree, serial) =>
        match Run.caught (runScript (Network.hostWith t.settle) tree.bare)
            ((t.before.machineOf i s .console session).numbered serial) with
        | .ok _ m => t.after i = Network.seatedAgain i .console m ∧
            t.shown i = .ok (((Network.hostWith t.settle).encoder m).script m.session.values)
        | .error stop m => t.after i = Network.seatedAgain i .console m ∧ t.shown i = .error stop

/-- No remote is entered any more, and that is all. -/
def Leaves (id : ConnectionId) : Prop :=
  t.after i = (t.before.modifyPeer i fun table => { table with entered := none }) ∧
    t.shown i = .ok ("left " ++ Peer.showId id)

/-- The line has been sent to the remote as one request, and its answer is shown; when it could not
be sent, nothing has been written, and the fault is shown. -/
def IsSent (id : ConnectionId) : Prop :=
  (∃ sent, t.before.Requests i id t.text sent ∧ t.after i = t.settle sent ∧
    t.shown i = showing ((t.after i).outcome? t.before.nextTicket)) ∨
  ∃ fault, ((t.before.peer i).remote id = .error fault ∨ ∃ remote,
    (t.before.peer i).remote id = .ok remote ∧
      t.before.write remote.link (Text.Utf8.encode t.text) = .error fault) ∧
    (t.after i).links = t.before.links ∧ t.shown i = .ok fault.errorText

/-- The line runs here or goes to the remote that is entered, and not both. -/
def IsApart : Prop :=
  match t.entered i with
  | none => t.RunsHere i
  | some id => t.before.Meanwhile i .console (t.after i) ∧
      if isLeave t.text then t.Leaves i id else t.IsSent i id

end Turn

/-- Lines are typed at a console, and in between and while they wait anything may happen
elsewhere. -/
inductive Typed (i : Nat) (n : Network) : List Turn → Network → Prop
  | start : Typed i n [] n
  | elsewhere {turns : List Turn} {n' n'' : Network} : Typed i n turns n' → n'.Elsewhere i n'' →
    Typed i n turns n''
  | line {turns : List Turn} {n' : Network} (settle : Network → Network) (text : String) :
      Typed i n turns n' → (∀ m : Network, m.Elsewhere i (settle m)) →
      Typed i n (turns ++ [⟨text, n', settle⟩]) (Turn.after i ⟨text, n', settle⟩)

/-- The session of a console is what comes of the lines, run in it one after another.  In between it
has not run, and has the stack and the frames that it had. -/
inductive Ran (i : Nat) (n : Network) : List String → Network → Prop
  | start : Ran i n [] n
  | meanwhile {lines : List String} {n' n'' : Network} : Ran i n lines n' →
    n'.Meanwhile i .console n'' →
      Ran i n lines n''
  | line {lines : List String} {n' : Network} (settle : Network → Network) (line : String) :
    Ran i n lines n' →
      (∀ m : Network, m.Elsewhere i (settle m)) →
      Ran i n (lines ++ [line])
        (n'.running i .console (answerLine (Network.hostWith settle) line)).1

variable {n n' : Network} {i : Nat} {s : Server} {session : Session} {t : Turn}

/-! ### Lines that are sent -/

namespace Turn

theorem here?_of_none (free : t.entered i = none) : t.here? i = some t.text := by
  rw [here?, free]
  rfl

theorem here?_of_some {id : ConnectionId} (entered : t.entered i = some id) : t.here? i = none := by
  rw [here?, entered]
  rfl

theorem leaves {id : ConnectionId} (entered : t.entered i = some id)
    (leave : isLeave t.text = true) :
    t.Leaves i id := by
  have step : lineWith t.settle ⟨t.before, i⟩ t.text =
      (⟨t.before.modifyPeer i fun t => t.leave.1, i⟩, .ok ("left " ++ Peer.showId id)) := by
    unfold lineWith
    rw [show Console.entered ⟨t.before, i⟩ = some id from entered]
    exact if_pos leave
  rw [Leaves, after, shown, step]
  exact ⟨rfl, rfl⟩

theorem lineWith_sent {id : ConnectionId} (entered : t.entered i = some id)
    (stays : ¬ isLeave t.text = true) :
    lineWith t.settle ⟨t.before, i⟩ t.text = forward t.settle ⟨t.before, i⟩ id t.text := by
  unfold lineWith
  rw [show Console.entered ⟨t.before, i⟩ = some id from entered]
  exact if_neg stays

theorem isSent {id : ConnectionId} (entered : t.entered i = some id)
    (stays : ¬ isLeave t.text = true) :
    t.IsSent i id := by
  rw [IsSent, after, shown, lineWith_sent entered stays, forward, Network.askWith]
  cases sent : Network.send i id t.text true t.before with
  | error fault n' =>
      obtain ⟨links, why⟩ := Network.links_of_send_error sent
      exact .inr ⟨fault, why, links, rfl⟩
  | ok ticket n' =>
      obtain ⟨rfl, requests⟩ := Network.requests_of_send sent
      exact .inl ⟨n', requests, rfl, rfl⟩

/-- Whatever comes of a line that does not run here, it happens elsewhere. -/
theorem elsewhere {id : ConnectionId} (entered : t.entered i = some id)
    (waits : ∀ m : Network, m.Elsewhere i (t.settle m)) : t.before.Elsewhere i (t.after i) := by
  by_cases leave : isLeave t.text = true
  · rw [(leaves entered leave).1]
    exact .single (.leave i)
  · have sends : t.before.Elsewhere i ((Network.sending i (some id) t.text true).after t.before) :=
      .single (.send i (some id) t.text true)
    change t.before.Elsewhere i ((Network.send i id t.text true).after t.before) at sends
    rw [after, lineWith_sent entered leave, forward, Network.askWith]
    unfold Network.Act.after at sends
    cases sent : Network.send i id t.text true t.before with
    | error fault n' =>
        rw [sent] at sends
        exact sends
    | ok ticket n' =>
        rw [sent] at sends
        exact sends.trans (waits n')

/-! ### Lines that run here -/

theorem lineWith_here (free : t.entered i = none) : t.after i =
      (t.before.running i .console (answerLine (Network.hostWith t.settle) t.text)).1 ∧ t.shown i =
      (t.before.running i .console (answerLine (Network.hostWith t.settle) t.text)).2 := by
  unfold after shown lineWith
  rw [show Console.entered ⟨t.before, i⟩ = none from free]
  exact ⟨rfl, rfl⟩

/-- Without a remote that is entered the line runs here. -/
theorem runsHere (free : t.entered i = none) (seated : t.before.Seated i .console s session) :
    t.RunsHere i := by
  refine ⟨s, session, seated, ?_⟩
  obtain ⟨behind, result⟩ := lineWith_here free
  rw [behind, result, Network.running_eq seated.found seated.idle]
  have step := parsed_eq .rho t.text (m := t.before.machineOf i s .console session)
  cases translated : translation .rho t.text (t.before.machineOf i s .console session) with
  | error fault =>
      rw [translated] at step
      rw [answerLine, Run.bind_of_ok step]
      refine ⟨rfl, Network.meanwhile_machineOf seated, ?_⟩
      change (t.before.machineOf i s .console session).common.world.links = _
      rw [Network.world_machineOf]
      rfl
  | ok read =>
      obtain ⟨tree, serial⟩ := read
      rw [translated] at step
      rw [answerLine, Run.bind_of_ok step]
      dsimp only
      cases ran : Run.caught (runScript (Network.hostWith t.settle) tree.bare)
          ((t.before.machineOf i s .console session).numbered serial) with
      | ok result m =>
          rw [Run.bind_of_ok ran]
          exact ⟨rfl, rfl⟩
      | error stop m =>
          rw [Run.bind_of_error ran]
          exact ⟨rfl, rfl⟩

end Turn

/-! ### Sessions -/

/-- A line leaves the network sound and the console on its seat. -/
theorem Turn.keeps (sound : t.before.Sound) (seated : t.before.Seated i .console s session)
    (waits : ∀ m : Network, m.Elsewhere i (t.settle m)) :
    (t.after i).Sound ∧ ∃ s' session', (t.after i).Seated i .console s' session' := by
  cases entered : t.entered i with
  | some id =>
      have elsewhere := Turn.elsewhere entered waits
      obtain ⟨-, s', other, -, seated', -⟩ := elsewhere.meanwhile sound seated
      exact ⟨elsewhere.sound sound, s', other, seated'⟩
  | none =>
      have settles : ∀ m : Network, m.Settled .silent → (t.settle m).Settled .silent :=
        fun m settled =>
        ((waits m).sound settled.toSound).silent
      have ran := sound.silent.runs_seated settles (fun m => (waits m).proceeds)
        (Network.Account.OfConnections.free i) seated t.text
      rw [(Turn.lineWith_here entered).1]
      exact ⟨ran.1.toSound, ran.2⟩

/-- A line runs here or goes elsewhere. -/
theorem Turn.isApart (sound : t.before.Sound) (seated : t.before.Seated i .console s session)
    (waits : ∀ m : Network, m.Elsewhere i (t.settle m)) : t.IsApart i := by
  unfold IsApart
  cases entered : t.entered i with
  | none => exact Turn.runsHere entered seated
  | some id =>
      refine ⟨(Turn.elsewhere entered waits).meanwhile sound seated, ?_⟩
      split
      · rename_i leave
        exact Turn.leaves entered leave
      · rename_i stays
        exact Turn.isSent entered stays

/-- **Lines do not mix.**  In a network that has arisen, let lines be typed at the console of a
server, while anything happens elsewhere, between the lines and while they wait.  Then each line
either runs in the session of the console or goes to the remote that is entered when it is typed, as
one request that the session does not notice, and `leave` goes nowhere; and the session is what
comes of the lines that were typed while no remote was entered. -/
theorem lines_apart (arises : n.Arises) (seated : n.Seated i .console s session) {turns : List Turn}
    (typed : Typed i n turns n') :
    Ran i n (turns.filterMap (Turn.here? i)) n' ∧ ∀ t ∈ turns, t.IsApart i := by
  have sound : n.Sound := (arises.settled (a := .silent)).toSound
  suffices h : n'.Sound ∧ (∃ s' session', n'.Seated i .console s' session') ∧
      Ran i n (turns.filterMap (Turn.here? i)) n' ∧ ∀ t ∈ turns, t.IsApart i from h.2.2
  induction typed with
  | start => exact ⟨sound, ⟨s, session, seated⟩, .start, nofun⟩
  | elsewhere _ between ih =>
      obtain ⟨sound', ⟨s', other, seated'⟩, ran, apart⟩ := ih
      have meanwhile := between.meanwhile sound' seated'
      obtain ⟨-, s'', there, -, seated'', -⟩ := meanwhile
      exact ⟨between.sound sound', ⟨s'', there, seated''⟩,
        ran.meanwhile (between.meanwhile sound' seated'), apart⟩
  | @line turns n' settle text _ waits ih =>
      obtain ⟨sound', ⟨s', other, seated'⟩, ran, apart⟩ := ih
      have keeps := Turn.keeps (t := ⟨text, n', settle⟩) sound' seated' waits
      refine ⟨keeps.1, keeps.2, ?_,
        List.forall_mem_append.mpr ⟨apart, List.forall_mem_singleton.mpr ?_⟩⟩
      · rw [List.filterMap_append]
        cases entered : Turn.entered i ⟨text, n', settle⟩ with
        | none =>
            rw [List.filterMap_cons, Turn.here?_of_none entered, (Turn.lineWith_here entered).1]
            exact ran.line settle text waits
        | some id =>
            rw [List.filterMap_cons, Turn.here?_of_some entered]
            change Ran i n (_ ++ []) _
            rw [List.append_nil]
            exact ran.meanwhile ((Turn.elsewhere entered waits).meanwhile sound' seated')
      · exact Turn.isApart sound' seated' waits

/-! ### A short session -/

/-- A server with a console, and a remote that answers the first text with `7`. -/
def attended : Option Network :=
  match Network.addServer .loopback .standard (.empty true) with
  | .ok i n => some ((n.modifyServer i (·.seated .console)).addRemote [[1, 0, 0, 0, 55]]).1
  | .error _ _ => none

/-- The server has entered the remote. -/
def conversing (n : Network) : Network :=
  let (table, id) := (n.peer 0).add (some ⟨n.links.size, .empty⟩)
  let (n, acceptor) := (n.modifyPeer 0 fun _ => table).accept (.remote 47813 [[1, 0, 0, 0, 55]])
  (Network.enter 0 none).after (n.join (.server 0 id) acceptor)

/-- A text for the remote, the way back, and a script for the session. -/
def conversation (n : Network) : List Turn :=
  let asked : Turn := ⟨"2 + 2", n, Network.settleFor 2⟩
  let left : Turn := ⟨"leave", asked.after 0, Network.settleFor 2⟩
  [asked, left, ⟨"1", left.after 0, Network.settleFor 2⟩]

set_option maxRecDepth 20000 in
theorem attended_reads : (attended.map Network.waiting) =
    some [(47813, .remote 47813 [[1, 0, 0, 0, 55]])] := by
  cbv

set_option maxRecDepth 20000 in
theorem conversing_reads : (attended.bind fun n => (conversing n).servers[0]?.bind fun s =>
    (s.idle.lookup .console).map fun _ => ((conversation (conversing n)).filterMap (Turn.here? 0),
      ((conversation (conversing n)).take 2).map fun t => (t.shown 0).toOption)) =
      some (["1"], [some "7", some "left #1"]) := by
  cbv

theorem arises_conversing (made : attended = some n) : (conversing n).Arises := by
  have waiting := attended_reads
  rw [made, Option.map_some, Option.some_inj] at waiting
  have arises : n.Arises ∧ n.surroundings = .loopback := by
    unfold attended at made
    split at made
    · rename_i i n₀ added
      cases made
      refine ⟨((Network.Arises.addServer (.amid .loopback) (by decide) added).console i).addRemote
        _, ?_⟩
      obtain ⟨server, -, rfl⟩ := Network.addServer_eq_ok added
      rfl
    · cases made
  have reached : n.reach "127.0.0.1" 47813 = .ok (.remote 47813 [[1, 0, 0, 0, 55]]) := by
    have isLocal : Network.Surroundings.isLocal "127.0.0.1" = true := by cbv
    refine Network.reach_loopback arises.2 isLocal ?_
    rw [waiting]
    rfl
  have connected := (arises.1.connect 0 "127.0.0.1" 47813).enter 0 none
  unfold Network.Act.after Network.connect at connected
  rw [reached] at connected
  exact connected

/-- The answer of the remote is shown, and the session of the console is what comes of the last
line. -/
theorem lines_apart_conversing : ∃ n n' s session,
    attended = some n ∧ (conversing n).Seated 0 .console s session ∧
    Typed 0 (conversing n) (conversation (conversing n)) n' ∧
    (((conversation (conversing n)).take 2).map fun t => (t.shown 0).toOption) =
    [some "7", some "left #1"] ∧
    Ran 0 (conversing n) ["1"] n' ∧ ∀ t ∈ conversation (conversing n), t.IsApart 0 := by
  obtain ⟨n, made, reached⟩ := Option.bind_eq_some_iff.mp conversing_reads
  obtain ⟨s, found, reached⟩ := Option.bind_eq_some_iff.mp reached
  obtain ⟨session, idle, reached⟩ := Option.map_eq_some_iff.mp reached
  obtain ⟨here, shown⟩ := Prod.mk.inj reached
  have waits : ∀ m : Network, m.Elsewhere 0 (Network.settleFor 2 m) :=
    Network.elsewhere_settleFor 2 0
  have typed : Typed 0 (conversing n) (conversation (conversing n)) _ :=
    ((Typed.start.line _ "2 + 2" waits).line _ "leave" waits).line _ "1" waits
  have apart := lines_apart (arises_conversing made) ⟨found, idle⟩ typed
  exact ⟨n, _, s, session, made, ⟨found, idle⟩, typed, shown, here ▸ apart.1, apart.2⟩

/-! ### The console that reads its input -/

/-- The line that is typed as a line of input, if it is not blank. -/
def lineOf? (bytes : Bytes) : Option String :=
  (Text.Utf8.decode? bytes).bind fun text =>
    if (Text.trim text).isEmpty then none else some (String.ofList (Text.trim text))

theorem Typed.trans {turns more : List Turn} {n'' : Network} (h : Typed i n turns n')
    (k : Typed i n' more n'') :
    Typed i n (turns ++ more) n'' := by
  induction k with
  | start => exact (List.append_nil turns).symm ▸ h
  | elsewhere _ between ih => exact ih.elsewhere between
  | @line more n' settle text _ waits ih =>
      rw [← List.append_assoc]
      exact ih.line settle text waits

theorem server_lineWith (settle : Network → Network) (c : Console) (text : String) :
    (c.lineWith settle text).1.server = c.server := by
  unfold lineWith
  cases c.entered with
  | none => rfl
  | some id =>
      dsimp only
      split
      · rfl
      · unfold forward Network.askWith
        cases Network.send c.server id text true c.network <;> rfl

/-- The turn of a line that a console takes. -/
def turn (c : Console) (text : String) : Turn := ⟨text, c.network, Network.settle⟩

theorem line_eq_turn (c : Console) (text : String) :
    c.line text = (⟨(c.turn text).after c.server, c.server⟩, (c.turn text).shown c.server) := by
  exact Prod.ext (congrArg (Console.mk _) (server_lineWith Network.settle c text)) rfl

/-- A line of input is blank, or it is typed; unless the input is no text. -/
theorem feed_cases (c : Console) (bytes : Bytes) :
    (lineOf? bytes = none ∧ (c.feed bytes = (c, .silence) ∨ c.feed bytes = (c, .exit failure))) ∨
    ∃ text, lineOf? bytes = some text ∧
      ((∃ shown, (c.turn text).shown c.server = .ok shown ∧
        c.feed bytes = (⟨((c.turn text).after c.server).settle, c.server⟩, .text shown)) ∨
      ∃ stop, (c.turn text).shown c.server = .error stop ∧
        c.feed bytes = (⟨(c.turn text).after c.server, c.server⟩, .exit crash)) := by
  unfold feed lineOf?
  cases Text.Utf8.decode? bytes with
  | none => exact .inl ⟨rfl, .inr rfl⟩
  | some text =>
      dsimp only [Option.bind_some]
      cases blank : (Text.trim text).isEmpty with
      | true => exact .inl ⟨if_pos rfl, .inl (if_pos rfl)⟩
      | false =>
          refine .inr ⟨String.ofList (Text.trim text), if_neg Bool.false_ne_true, ?_⟩
          rw [if_neg Bool.false_ne_true, line_eq_turn]
          cases (c.turn (String.ofList (Text.trim text))).shown c.server with
          | ok shown => exact .inl ⟨shown, rfl, rfl⟩
          | error stop => exact .inr ⟨stop, rfl, rfl⟩

theorem Typed.turn (c : Console) (text : String) :
    Typed c.server c.network [c.turn text] ((c.turn text).after c.server) :=
  Typed.start.line Network.settle text fun m => Network.elsewhere_settleFor
    Network.patience c.server m

/-- What a console reads until it ends are lines that are typed at it, and what it shows is shown
for them. -/
theorem typed_run (c : Console) (inputs : List Bytes) :
    ∃ turns n', Typed c.server c.network turns n' ∧
    (c.run inputs).1 = ⟨n', c.server⟩ ∧ turns.map Turn.text <+: inputs.filterMap lineOf? ∧
    (c.run inputs).2.1 = turns.filterMap fun t => (t.shown c.server).toOption := by
  induction inputs generalizing c with
  | nil => exact ⟨[], c.network, .start, rfl, List.nil_prefix, rfl⟩
  | cons bytes rest ih =>
      rw [run, List.filterMap_cons]
      rcases c.feed_cases bytes with ⟨blank, fed | fed⟩
          | ⟨text, read, ⟨shown, showed, fed⟩ | ⟨stop, stopped, fed⟩⟩
      · rw [fed, blank]
        exact ih c
      · rw [fed, blank]
        exact ⟨[], c.network, .start, rfl, List.nil_prefix, rfl⟩
      · rw [fed, read]
        obtain ⟨turns, n', typed, ended, texts, shows⟩ :=
          ih ⟨((c.turn text).after c.server).settle, c.server⟩
        have first := (Typed.turn c text).elsewhere
          (Network.elsewhere_settleFor Network.patience c.server ((c.turn text).after c.server))
        refine ⟨c.turn text :: turns, n', first.trans typed, ended, ?_, ?_⟩
        · exact List.prefix_cons_inj _ |>.mpr texts
        · rw [List.filterMap_cons, showed]
          exact congrArg (shown :: ·) shows
      · rw [fed, read]
        refine ⟨[c.turn text], _, .turn c text, rfl, ?_, ?_⟩
        · exact List.prefix_cons_inj _ |>.mpr List.nil_prefix
        · rw [List.filterMap_cons, stopped]
          rfl

end Console

end PeerScript
