import PeerScript.Network.Serve
import PeerScript.Proofs.Underrun

/-!
# Which messages are answered

A message that a server has received is answered unless its script breaks or waits for ever.
`receive_answers` says what the answer is and what is raised behind it, and what the condition is:
whatever else goes wrong, in the text or while it runs, is on the stack that the answer shows.

The condition can be met.  The message of `receive_underrun` is a number and a list whose only item
takes the number off the stack again; a new server that gets it does not answer.
-/

set_option autoImplicit false

namespace PeerScript

open Run
open Peer (ConnectionId)
open Service (Server Seat)
open Wire (Bytes)

section Answering

variable {σ : Type} (host : Host σ) (language : Script.Language) (text : String)

/-- The tree of a text in the scope of a session, and the serial number behind it. -/
def translation (m : Machine σ) : Except Fault (Tree × Nat) :=
  Script.parse language ⟨m.common.store.contains m.session.ambient, m.session.registry⟩ text
    m.common.serial

/-- The second machine is what a text makes of the first one: it cannot be translated and a marker
is pushed, or its script runs to its end, or it runs into a fault. -/
inductive Handled (m : Machine σ) : Machine σ → Prop
  | untranslated {fault : Fault} :
      translation language text m = .error fault → Handled m (m.push (marker fault))
  | ran {tree : Tree} {serial : Nat} {m' : Machine σ} :
      translation language text m = .ok (tree, serial) →
      runScript host tree.bare (m.numbered serial) = .ok () m' → Handled m m'
  | failed {tree : Tree} {serial : Nat} {fault : Fault} {m' : Machine σ} :
      translation language text m = .ok (tree, serial) →
      runScript host tree.bare (m.numbered serial) = .error (.failed fault) m' → Handled m m'

/-- The script of a text comes to a call whose arguments leave the stack lower than they found it,
or waits for something that cannot happen. -/
def Strands (m : Machine σ) : Prop :=
  ∃ tree serial, translation language text m = .ok (tree, serial) ∧
    (Underruns host m.levels (.tree tree.bare m.session.ambient) (m.numbered serial) ∨
      ∃ m', runScript host tree.bare (m.numbered serial) = .error .unfinished m')

/-- The text of the stack of a machine. -/
def Machine.written (m : Machine σ) : String := (host.encoder m).script m.session.values

/-- The machine behind an answer. -/
def Machine.answered (policy : StackPolicy) (m : Machine σ) : Machine σ :=
  if policy = .consumeOnReply then m.withStack [] else m

theorem runScript_breaks_iff {tree : Tree} {m : Machine σ} :
    Breaks (runScript host tree) m ↔
      Underruns host m.levels (.tree tree m.session.ambient) m := by
  refine Iff.trans ?_ (breaks_iff_underruns host)
  have whole : (Task.tree tree m.session.ambient).run host m.levels m =
      evalIn host tree m.session.ambient m := rfl
  unfold Breaks
  rw [runScript_eq, ← whole]
  cases (Task.tree tree m.session.ambient).run host m.levels m with
  | ok _ _ => simp
  | error stop _ => cases stop <;> simp

variable (policy : StackPolicy)

theorem parsed_eq {m : Machine σ} : parsed language text m =
    match translation language text m with
    | .error fault => .ok (.error fault) m
    | .ok (tree, serial) => .ok (.ok tree) (m.numbered serial) := by
  have step : parsed language text m = (match translation language text m with
    | .error fault => pure (.error fault)
    | .ok (tree, serial) => do
        set (m.numbered serial)
        return .ok tree : Run σ (Except Fault Tree)) m := rfl
  rw [step]
  cases translation language text m <;> rfl

/-- What an answer does last: it writes the stack, and clears it if the policy says so. -/
theorem answer_end (m : Machine σ) :
    (do
      let m ← get
      if policy = .consumeOnReply then modify (·.withStack [])
      return (host.encoder m).script m.session.values : Run σ String) m =
      .ok (m.written host) (m.answered policy) := by
  rw [bind_of_ok get_eq]
  unfold Machine.answered
  split <;> rfl

theorem answer_of_handled {m m' : Machine σ} (h : Handled host language text m m') :
    answer host language policy text m = .ok (m'.written host) (m'.answered policy) := by
  have step := parsed_eq language text (m := m)
  unfold answer
  cases h with
  | untranslated untranslated =>
      rw [untranslated] at step
      rw [bind_of_ok step]
      exact answer_end host policy _
  | @ran tree serial _ translated ran =>
      rw [translated] at step
      have finished : caught (runScript host tree.bare) (m.numbered serial) = .ok (.ok ()) m' := by
        rw [caught, ran]
      rw [bind_of_ok step]
      exact (bind_of_ok finished).trans (answer_end host policy m')
  | @failed tree serial fault _ translated failed =>
      rw [translated] at step
      have finished : caught (runScript host tree.bare) (m.numbered serial) =
          .ok (.error fault) m' := by
        rw [caught, failed]
      rw [bind_of_ok step]
      exact (bind_of_ok finished).trans (answer_end host policy m')

theorem answer_of_strands {m : Machine σ} (h : Strands host language text m) :
    ∃ stop m', answer host language policy text m = .error stop m' := by
  obtain ⟨tree, serial, translated, stopped⟩ := h
  have stopped :
      ∃ stop m', caught (runScript host tree.bare) (m.numbered serial) = .error stop m' := by
    rcases stopped with underruns | ⟨m', unfinished⟩
    · have breaks : Breaks (runScript host tree.bare) (m.numbered serial) :=
        (runScript_breaks_iff host).mpr underruns
      obtain ⟨m', broke⟩ := breaks_caught.mpr breaks
      exact ⟨.broken, m', broke⟩
    · exact ⟨.unfinished, m', by rw [caught, unfinished]⟩
  obtain ⟨stop, m', stopped⟩ := stopped
  refine ⟨stop, m', ?_⟩
  have step := parsed_eq language text (m := m)
  rw [translated] at step
  unfold answer
  rw [bind_of_ok step]
  exact bind_of_error stopped

/-- A text is handled unless its script strands. -/
theorem handled_or_strands (m : Machine σ) :
    Strands host language text m ∨ ∃ m', Handled host language text m m' := by
  cases translated : translation language text m with
  | error fault => exact .inr ⟨_, .untranslated translated⟩
  | ok result =>
      obtain ⟨tree, serial⟩ := result
      cases ran : runScript host tree.bare (m.numbered serial) with
      | ok _ m' => exact .inr ⟨m', .ran translated ran⟩
      | error stop m' =>
          cases stop with
          | failed fault => exact .inr ⟨m', .failed translated ran⟩
          | broken =>
              exact .inl ⟨tree, serial, translated,
                .inl ((runScript_breaks_iff host).mp ⟨m', ran⟩)⟩
          | unfinished => exact .inl ⟨tree, serial, translated, .inr ⟨m', ran⟩⟩

end Answering

/-! ## Messages of a network -/

namespace Network

variable (n : Network) (i : Nat)

/-- The machine of a session that leaves its seat to run. -/
def machineOf (s : Server) (seat : Seat) (session : Session) : Machine Network :=
  ⟨session, (s.vacated seat).common (n.modifyServer i fun _ => s.vacated seat)⟩

/-- The machine of a session that gets a message on a connection. -/
def machineAt (s : Server) (id : ConnectionId) (text : String) (session : Session) :
    Machine Network :=
  (n.modifyPeer i (·.noteReceived id text)).machineOf i s (.connection id) session

/-- The server to which a session returns. -/
def resumed (seat : Seat) (m : Machine Network) (s : Server) : Server :=
  { s.reclaim m.common with idle := Association.put seat m.session s.idle }

/-- The network in which a session is back on its seat. -/
def seatedAgain (seat : Seat) (m : Machine Network) : Network :=
  m.common.world.modifyServer i (resumed seat m)

theorem running_eq {α : Type} {n : Network} {i : Nat} {s : Server} {seat : Seat} {session : Session}
    (found : n.servers[i]? = some s) (idle : s.idle.lookup seat = some session)
    (act : Run Network α) : n.running i seat act =
      match act (n.machineOf i s seat session) with
      | .ok a m => (seatedAgain i seat m, .ok a)
      | .error stop m => (seatedAgain i seat m, .error stop) := by
  unfold running
  simp only [found, idle]
  rfl

theorem evaluate_eq (host : Host Network) {n : Network} {i : Nat} {s : Server} {seat : Seat}
    {session : Session} (text : String) (found : n.servers[i]? = some s)
    (idle : s.idle.lookup seat = some session) : evaluate host n i seat text =
      match answer host s.settings.language s.settings.stackPolicy text
          (n.machineOf i s seat session) with
      | .ok reply m => (seatedAgain i seat m, .ok reply)
      | .error stop m => (seatedAgain i seat m, .error stop) := by
  unfold evaluate
  simp only [found]
  rw [running_eq found idle]
  cases answer host s.settings.language s.settings.stackPolicy text _ <;> rfl

/-- The network behind an answer: the session is back on its seat, an answer that was written is
kept, and the event is raised once. -/
def answeredWith {α : Type} (policy : StackPolicy) (i : Nat) (id : ConnectionId)
    (text reply : String) (written : Except Fault α) (m : Machine Network) : Network :=
  let n := seatedAgain i (.connection id) (m.answered policy)
  let n := match written with
    | .ok _ => n.modifyPeer i (·.noteSent id reply)
    | .error _ => n
  n.modifyPeer i (·.raise (.request id text))

theorem peer_modifyPeer {n : Network} {i : Nat} {s : Server} (found : n.servers[i]? = some s)
    (change : Peer.Table → Peer.Table) : (n.modifyPeer i change).peer i = change s.peer := by
  simp [peer, modifyPeer, modifyServer, Array.getElem?_modify, found]

theorem servers_modifyServer {n : Network} {i : Nat} {s : Server} (found : n.servers[i]? = some s)
    (change : Server → Server) : (n.modifyServer i change).servers[i]? = some (change s) := by
  simp [modifyServer, Array.getElem?_modify, found]

theorem servers_modifyPeer {n : Network} {i : Nat} {s : Server} (found : n.servers[i]? = some s)
    (change : Peer.Table → Peer.Table) :
    (n.modifyPeer i change).servers[i]? = some { s with peer := change s.peer } :=
  servers_modifyServer found _

/-! ## What is reported of the surroundings -/

section Reports

variable {n : Network} {fault : Fault}

/-- Nobody is reached because no connection came about. -/
theorem reach_fails {host : String} {port : Nat} (failed : n.reach host port = .error fault) :
    ∃ reason, fault = .transport reason := by
  unfold reach at failed
  cases attempt : n.surroundings.attempt n.waiting host port with
  | opened target =>
      rw [attempt] at failed
      exact nomatch failed
  | late | failed reason | delaying reason | anonymous reason =>
      rw [attempt] at failed
      cases failed
      exact ⟨_, rfl⟩

/-- On a machine by itself those who wait at a port are reached. -/
theorem reach_loopback {host : String} {port : Nat} {target : Target}
    (alone : n.surroundings = .loopback) (isLocal : Surroundings.isLocal host = true)
    (waits : n.waiting.lookup port = some target) :
    n.reach host port = .ok target := by
  have attempt : n.surroundings.attempt n.waiting host port = .opened target := by
    rw [alone]
    unfold Surroundings.loopback Surroundings.attemptHere
    dsimp only
    rw [if_pos isLocal, waits]
  rw [reach, attempt]
  rfl

/-- A message is not written because it cannot be sent, or because the stream broke. -/
theorem write_fails {k : Nat} {message : Bytes} (failed : n.write k message = .error fault) :
    (∃ reason, fault = .transport reason) ∨ ∃ reason, fault = .protocol reason := by
  unfold write Wire.Frame.write at failed
  split at failed
  · rename_i large
    split at large
    · cases large
      cases failed
      exact .inr ⟨_, rfl⟩
    · exact nomatch large
  · split at failed
    · rename_i broken _
      cases failed
      cases broken <;> exact .inl ⟨_, rfl⟩
    · exact nomatch failed

/-- A message is written as its frame, unless the stream breaks. -/
theorem write_eq_ok {k : Nat} {message frame : Bytes} (written : n.write k message = .ok frame) :
    Wire.Frame.write message = .ok frame ∧ n.surroundings.breaks k message = none := by
  unfold write at written
  cases framed : Wire.Frame.write message with
  | error fault =>
      rw [framed] at written
      exact nomatch written
  | ok other =>
      rw [framed] at written
      cases broken : n.surroundings.breaks k message with
      | some broken' =>
          rw [broken] at written
          exact nomatch written
      | none =>
          rw [broken] at written
          cases written
          exact ⟨rfl, rfl⟩

/-- A server cannot listen, whichever step of it failed. -/
theorem Preparation.fault_cases (step : Preparation) (host : String) (port : Nat)
    (reason : String) :
    ∃ detail, step.fault host port reason = .cannotListen detail := by
  cases step <;> exact ⟨_, rfl⟩

end Reports

/-! ## A message that is taken -/

/-- The event of a message is the last one behind those of the run. -/
theorem events_answeredWith {α : Type} {policy : StackPolicy} {i : Nat} {id : ConnectionId}
    {text reply : String} {written : Except Fault α} {m : Machine Network} {s : Server}
    (found : m.common.world.servers[i]? = some s) :
    ((answeredWith policy i id text reply written m).peer i).events =
      s.peer.events ++ [.request id text] := by
  have world : (m.answered policy).common.world = m.common.world := by
    unfold Machine.answered
    split <;> rfl
  have seated : (seatedAgain i (.connection id) (m.answered policy)).servers[i]? =
      some (resumed (.connection id) (m.answered policy) s) :=
    servers_modifyServer (world ▸ found) _
  unfold answeredWith
  cases written with
  | error fault =>
      dsimp only
      rw [peer_modifyPeer seated]
      rfl
  | ok a =>
      dsimp only
      rw [peer_modifyPeer (servers_modifyPeer seated _)]
      rfl

section Receiving

variable {α : Type} (host : Host Network) (write : Bytes → Except Fault α) {n : Network} {i : Nat}
  {s : Server} {session : Session} (id : ConnectionId) (text : String)
  (found : (n.modifyPeer i (·.noteReceived id text)).servers[i]? = some s)
  (idle : s.idle.lookup (.connection id) = some session)

include found idle

theorem receive_of_strands
    (h : Strands host s.settings.language text (n.machineAt i s id text session)) :
    ∃ n' stop, receive host write n i id text = (n', .error stop) := by
  obtain ⟨stop, m', stopped⟩ := answer_of_strands host _ text s.settings.stackPolicy h
  rw [machineAt] at stopped
  unfold receive
  rw [evaluate_eq host text found idle, stopped]
  exact ⟨_, stop, rfl⟩

theorem receive_of_handled {m' : Machine Network}
    (h : Handled host s.settings.language text (n.machineAt i s id text session) m') :
    receive host write n i id text =
      (answeredWith s.settings.stackPolicy i id text (m'.written host)
          (write (Text.Utf8.encode (m'.written host))) m',
        .ok (m'.written host, write (Text.Utf8.encode (m'.written host)))) := by
  have answered := answer_of_handled host _ text s.settings.stackPolicy h
  rw [machineAt] at answered
  unfold receive
  rw [evaluate_eq host text found idle, answered]
  rfl

/-- A message on a connection whose session is idle is either answered or strands, and not both.
The answer is the text of the stack that the message leaves; it is handed over once, and the event
is raised once behind it. -/
theorem receive_answers :
    (Strands host s.settings.language text (n.machineAt i s id text session) ∧
      ∃ n' stop, receive host write n i id text = (n', .error stop)) ∨
    (¬ Strands host s.settings.language text (n.machineAt i s id text session) ∧
      ∃ m' n' written, Handled host s.settings.language text (n.machineAt i s id text session) m' ∧
        write (Text.Utf8.encode (m'.written host)) = written ∧
        answeredWith s.settings.stackPolicy i id text (m'.written host) written m' = n' ∧
        receive host write n i id text = (n', .ok (m'.written host, written)) ∧
        ∀ s', m'.common.world.servers[i]? = some s' →
          (n'.peer i).events = s'.peer.events ++ [.request id text]) := by
  by_cases strands : Strands host s.settings.language text (n.machineAt i s id text session)
  · exact .inl ⟨strands, receive_of_strands host write id text found idle strands⟩
  · obtain ⟨m', handled⟩ := (handled_or_strands host _ text _).resolve_left strands
    have received := receive_of_handled host write id text found idle handled
    exact .inr ⟨strands, m', _, _, handled, rfl, rfl, received,
      fun s' there => events_answeredWith there⟩

end Receiving

/-! ## A message without an answer -/

/-- The network after the messages on a connection have been taken. -/
def receiveAll {α : Type} (host : Host Network) (write : Bytes → Except Fault α) (n : Network)
    (i : Nat) (id : ConnectionId) (texts : List String) : Network :=
  texts.foldl (fun n text => (receive host write n i id text).1) n

/-- A server by itself, which has opened a session for one connection. -/
def serving (s : Server) : Network :=
  { empty false with servers := #[s] }.modifyServer 0 (·.seated (.connection 1))

/-- The machine of the first connection to a server. -/
def firstMachine (s : Server) : Machine Network :=
  (serving s).machineOf 0 (s.seated (.connection 1)) (.connection 1)
    (.new s.registry s.store.frames.size)

/-- A server can be made. -/
theorem new_loopback : ∃ s, Server.new .loopback .standard 0 = .ok s := by
  have succeeds : (Server.new .loopback .standard 0).isOk = true := by decide +kernel
  cases made : Server.new .loopback .standard 0 with
  | ok s => exact ⟨s, rfl⟩
  | error fault =>
      rw [made] at succeeds
      cases succeeds

set_option maxRecDepth 20000 in
/-- The only item of the list takes away what was on the stack in front of the list. -/
theorem lost_dropInList {s : Server} (made : Server.new .loopback .standard 0 = .ok s) :
    (receive Network.host Wire.Frame.write (serving s) 0 1 "1 [drop()]").2.isOk = false := by
  have lost : ((Server.new .loopback .standard 0).toOption.map fun s =>
      (receive Network.host Wire.Frame.write (serving s) 0 1 "1 [drop()]").2.isOk) =
        some false := by
    decide +kernel
  rw [made] at lost
  exact Option.some.inj lost

theorem receive_answers_dropInList :
    ∃ s t session, Server.new .loopback .standard 0 = .ok s ∧
      ((serving s).modifyPeer 0 (·.noteReceived 1 "1 [drop()]")).servers[0]? = some t ∧
      t.idle.lookup (.connection 1) = some session ∧
      Strands Network.host t.settings.language "1 [drop()]"
        ((serving s).machineAt 0 t 1 "1 [drop()]" session) ∧
      ∃ n' stop, receive Network.host Wire.Frame.write (serving s) 0 1 "1 [drop()]" =
        (n', .error stop) := by
  obtain ⟨s, made⟩ := new_loopback
  have lost := lost_dropInList made
  have opened : (serving s).servers[0]? = some (s.seated (.connection 1)) := rfl
  have found := servers_modifyPeer opened (·.noteReceived 1 "1 [drop()]")
  have idle : (s.seated (.connection 1)).idle.lookup (.connection 1) =
      some (.new s.registry s.store.frames.size) := rfl
  refine ⟨s, _, _, made, found, idle, ?_⟩
  rcases receive_answers Network.host Wire.Frame.write 1 "1 [drop()]" found idle with
    strands | ⟨-, m', n', written, -, -, -, received, -⟩
  · exact strands
  · rw [received] at lost
    exact nomatch lost

/-- Not every message to a new server is answered. -/
theorem receive_underrun :
    ¬ ∀ (settings : Settings) (registry : Registry) (number : Nat) (s : Server),
      Server.new settings registry number = .ok s → ∀ (n : Network) (i : Nat),
      n.servers[i]? = some s → ∀ (id : ConnectionId) (earlier : List String) (text : String),
        ∃ n' reply, receive Network.host Wire.Frame.write
          (receiveAll Network.host Wire.Frame.write (n.modifyServer i (·.seated (.connection id)))
            i id earlier) i id text = (n', .ok reply) := by
  intro answered
  obtain ⟨s, made⟩ := new_loopback
  obtain ⟨n', reply, received⟩ := answered .loopback .standard 0 s made
    { empty false with servers := #[s] } 0 rfl 1 [] "1 [drop()]"
  have lost := lost_dropInList made
  change receive Network.host Wire.Frame.write (serving s) 0 1 "1 [drop()]" = _ at received
  rw [received] at lost
  exact nomatch lost

end Network

end PeerScript
