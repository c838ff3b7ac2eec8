import Mathlib.Data.List.DropRight
import PeerScript.Proofs.Bystanders

/-!
# The books of a connection

Messages that come on an accepted connection are taken one after another.  Each is kept before its
script runs, its reply is kept if it could be written, and it is reported in any case, behind the
attempt to write the reply.  `receive_records` says what one message adds to the books; what its
script does meanwhile adds nothing, because the connection is busy.  `messages_recorded` adds up the
messages.
-/

set_option autoImplicit false

namespace PeerScript

open Peer (Client ConnectionId)
open Service (Server Seat)
open Wire (Bytes)

/-! ## Histories -/

namespace Peer

theorem remember_eq (limit : Nat) (history : List String) (text : String) :
    remember limit history text = (history ++ [text]).rtake limit := rfl

/-- What was forgotten before would be forgotten now. -/
theorem remember_rtake (limit : Nat) (history : List String) (text : String) :
    remember limit (history.rtake limit) text = (history ++ [text]).rtake limit := by
  rw [remember_eq]
  simp only [List.rtake_eq_reverse_take_reverse, List.reverse_append, List.reverse_reverse,
    List.reverse_singleton, List.singleton_append]
  cases limit with
  | zero => rfl
  | succ limit =>
    rw [List.take_succ_cons, List.take_succ_cons, List.take_take,
      Nat.min_eq_left (Nat.le_succ limit)]

/-- An accepted connection on which these messages were exchanged. -/
def Client.exchanged (id : ConnectionId) (limit : Nat) (sent received : List String) : Client :=
  ⟨id, .inbound, sent.rtake limit, received.rtake limit, limit⟩

namespace Client

variable {id : ConnectionId} {limit : Nat} {sent received : List String}

theorem exchanged_nil (id : ConnectionId) (limit : Nat) :
    exchanged id limit [] [] = .new id .inbound limit := by
  rw [exchanged, List.rtake_nil]
  rfl

theorem noteReceived_exchanged (text : String) :
    (exchanged id limit sent received).noteReceived text =
    exchanged id limit sent (received ++ [text]) :=
  congrArg (Client.mk id .inbound _ · limit) (remember_rtake limit received text)

theorem noteSent_exchanged (text : String) : (exchanged id limit sent received).noteSent text =
    exchanged id limit (sent ++ [text]) received :=
  congrArg (Client.mk id .inbound · _ limit) (remember_rtake limit sent text)

end Client

/-- A change of an entry removes none. -/
theorem Table.isSome_find?_update (t : Table) (id other : ConnectionId) (change : Entry → Entry) :
    ((t.update id change).find? other).isSome = (t.find? other).isSome := by
  rw [find?_update]
  split
  · exact Option.isSome_map
  · rfl

namespace Table.Keeps

variable {t : Table} {id : ConnectionId} {c : Client} {texts : List String} (h : t.Keeps id c texts)

include h

/-- The entry of the connection is changed, if it is there. -/
theorem change {change : Entry → Entry} {c' : Client} (changes : change ⟨c, none⟩ = ⟨c', none⟩) :
    (t.update id change).Keeps id c' texts := by
  refine ⟨h.numbered, fun e found => ?_, h.asked⟩
  rw [find?_update, if_pos rfl] at found
  obtain ⟨e', found', rfl⟩ := Option.map_eq_some_iff.mp found
  rw [h.entry e' found']
  exact changes

theorem received (text : String) : (t.noteReceived id text).Keeps id (c.noteReceived text) texts :=
  h.change rfl

theorem replied (text : String) : (t.noteSent id text).Keeps id (c.noteSent text) texts :=
  h.change rfl

theorem reported (text : String) : (t.raise (.request id text)).Keeps id c (texts ++ [text]) :=
  ⟨h.numbered, h.entry, (asked_raise_request t id text).trans (congrArg (· ++ [text]) h.asked)⟩

end Table.Keeps

end Peer

namespace Network

variable {α : Type} {write : Bytes → Except Fault α} {n n' n₁ : Network} {i : Nat}
  {id : ConnectionId}
  {c : Client} {texts : List String} {text reply : String}

/-! ## One message -/

/-- The table of a server keeps an accepted connection with these histories, unless it is gone, and
these requests on it were reported. -/
def Books (i : Nat) (id : ConnectionId) (c : Client) (texts : List String) (n : Network) : Prop :=
  ∃ s, n.servers[i]? = some s ∧ s.peer.Keeps id c texts

namespace Books

theorem keeps (h : n.Books i id c texts) : (n.peer i).Keeps id c texts := by
  obtain ⟨s, found, keeps⟩ := h
  rwa [Network.peer, found]

theorem modifyPeer {c' : Client} {texts' : List String} {change : Peer.Table → Peer.Table}
    (h : n.Books i id c texts)
    (changes : ∀ t : Peer.Table, t.Keeps id c texts → (change t).Keeps id c' texts') :
    (n.modifyPeer i change).Books i id c' texts' := by
  obtain ⟨s, found, keeps⟩ := h
  exact ⟨_, servers_modifyPeer found change, changes s.peer keeps⟩

end Books

/-- What a script does leaves the books of its own connection as they are. -/
theorem books_evaluate (h : n.Books i id c texts)
    (ran : evaluate host n i (.connection id) text = (n₁, .ok reply)) : n₁.Books i id c texts := by
  obtain ⟨s, found, keeps⟩ := h
  cases idle : s.idle.lookup (.connection id) with
  | none =>
      simp only [evaluate, running, found, idle] at ran
      cases (Prod.mk.inj ran).2
  | some session =>
      have busy : (n.machineOf i s (.connection id) session).common.world.Busy i id c texts := by
        rw [world_machineOf]
        refine ⟨_, servers_modifyServer found _, ?_, keeps⟩
        change (Association.erase _ s.idle).lookup _ = none
        rw [Association.lookup_erase, if_pos rfl]
      have kept := keeps_answer (host_keeps i id c texts) s.settings.language
        s.settings.stackPolicy text _ busy
      rw [evaluate_eq host text found idle] at ran
      cases ended : answer host s.settings.language s.settings.stackPolicy text
          (n.machineOf i s (.connection id) session) with
      | error stop m =>
          rw [ended] at ran
          cases (Prod.mk.inj ran).2
      | ok reply' m =>
          rw [ended] at ran kept
          obtain ⟨s', found', busy'⟩ := kept
          obtain rfl : seatedAgain i (.connection id) m = n₁ := (Prod.mk.inj ran).1
          exact ⟨_, servers_modifyServer found' _, busy'.peer⟩

/-- What is known of a call that takes a message and returns: the reply is handed over when the
script has run, it is kept if it could be written, and the message is reported behind that. -/
theorem receive_returns {host : Host Network} {returned : Except Fault α}
    (taken : receive host write n i id text = (n', .ok (reply, returned))) :
    ∃ n₁, evaluate host (n.modifyPeer i (·.noteReceived id text)) i (.connection id) text =
      (n₁, .ok reply) ∧ returned = write (Text.Utf8.encode reply) ∧
      n' = (match returned with
        | .ok _ => n₁.modifyPeer i (·.noteSent id reply)
        | .error _ => n₁).modifyPeer i (·.raise (.request id text)) := by
  unfold receive at taken
  cases ran : evaluate host (n.modifyPeer i (·.noteReceived id text)) i (.connection id) text with
  | mk n₁ result =>
      rw [ran] at taken
      cases result with
      | error stop => exact nomatch (Prod.mk.inj taken).2
      | ok reply' =>
          dsimp only at taken
          obtain ⟨state, result⟩ := Prod.mk.inj taken
          obtain ⟨rfl, rfl⟩ := Prod.mk.inj (Except.ok.inj result)
          exact ⟨n₁, rfl, rfl, state.symm⟩

/-- The replies that were written, of one. -/
def writtenOf (reply : String) : Except Fault α → List String
  | .ok _ => [reply]
  | .error _ => []

/-- One message more is in the books: it was kept, its reply was kept if it could be written, and it
was reported, but not before its reply was handed over. -/
theorem receive_records {limit : Nat} {sent received : List String} {returned : Except Fault α}
    (h : n.Books i id (.exchanged id limit sent received) texts)
    (taken : receive host write n i id text = (n', .ok (reply, returned))) :
    returned = write (Text.Utf8.encode reply) ∧
      n'.Books i id (.exchanged id limit (sent ++ writtenOf reply returned) (received ++ [text]))
        (texts ++ [text]) ∧
      ∃ n₁, evaluate host (n.modifyPeer i (·.noteReceived id text)) i (.connection id) text =
        (n₁, .ok reply) ∧ n₁.Books i id (.exchanged id limit sent (received ++ [text])) texts := by
  obtain ⟨n₁, ran, handed, rfl⟩ := receive_returns taken
  have noted : (n.modifyPeer i (·.noteReceived id text)).Books i id
      (.exchanged id limit sent (received ++ [text])) texts :=
    h.modifyPeer fun t keeps => Client.noteReceived_exchanged text ▸ keeps.received text
  have handedOver := books_evaluate noted ran
  refine ⟨handed, ?_, n₁, ran, handedOver⟩
  cases returned with
  | error fault =>
      rw [writtenOf, List.append_nil]
      exact handedOver.modifyPeer fun t keeps => keeps.reported text
  | ok a =>
      have kept : (n₁.modifyPeer i (·.noteSent id reply)).Books i id
          (.exchanged id limit (sent ++ [reply]) (received ++ [text])) texts :=
        handedOver.modifyPeer fun t keeps => Client.noteSent_exchanged reply ▸ keeps.replied reply
      exact kept.modifyPeer fun t keeps => keeps.reported text

/-! ## Messages -/

/-- A call that took a message and returned. -/
structure Taken (α : Type) where
  text : String
  /-- what the reply was handed to -/
  write : Bytes → Except Fault α
  reply : String
  returned : Except Fault α
  /-- the requests on the connection that had been reported when the reply was handed over -/
  reported : List String

/-- The network has changed, but not the books of a connection. -/
structure Passes (i : Nat) (id : ConnectionId) (n n' : Network) : Prop where
  servers : (n.servers[i]?).isSome = true → (n'.servers[i]?).isSome = true
  numbered : (n.peer i).nextId ≤ (n'.peer i).nextId
  entry : (n'.peer i).find? id = (n.peer i).find? id
  asked : (n'.peer i).asked id = (n.peer i).asked id

/-- Messages on a connection are taken one after another.  In between, anything may happen that
leaves the books of the connection as they are. -/
inductive Takes (i : Nat) (id : ConnectionId) : Network → List (Taken α) → Network → Prop
  | none (n : Network) : Takes i id n [] n
  | meanwhile {n n' n'' : Network} {calls : List (Taken α)} :
      n.Passes i id n' → Takes i id n' calls n'' → Takes i id n calls n''
  | message {n n₁ n' n'' : Network} {call : Taken α} {calls : List (Taken α)} :
      evaluate host (n.modifyPeer i (·.noteReceived id call.text)) i (.connection id) call.text =
        (n₁, .ok call.reply) →
      call.reported = (n₁.peer i).asked id →
      receive host call.write n i id call.text = (n', .ok (call.reply, call.returned)) →
      Takes i id n' calls n'' → Takes i id n (call :: calls) n''

/-- The replies that were written, in order. -/
def repliesOf (calls : List (Taken α)) : List String :=
  calls.flatMap fun call => writtenOf call.reply call.returned

/-- The texts of the messages, in order. -/
def textsOf (calls : List (Taken α)) : List String := calls.map Taken.text

theorem Books.passes (h : n.Books i id c texts) (passes : n.Passes i id n') :
    n'.Books i id c texts := by
  have keeps := h.keeps
  obtain ⟨s, found, -⟩ := h
  obtain ⟨s', found'⟩ := Option.isSome_iff_exists.mp (passes.servers (found ▸ rfl))
  have peer : n'.peer i = s'.peer := by rw [Network.peer, found']; rfl
  obtain ⟨-, numbered, entry, asked⟩ := passes
  rw [peer] at numbered entry asked
  exact ⟨s', found', Nat.lt_of_lt_of_le keeps.numbered numbered,
    fun e there => keeps.entry e (entry ▸ there),
    asked.trans keeps.asked⟩

/-- The books behind some messages, and what had been reported when each of them was answered. -/
theorem takes_records {limit : Nat} {calls : List (Taken α)} (takes : Takes i id n calls n') :
    ∀ {sent received texts : List String}, n.Books i id (.exchanged id limit sent received) texts →
      n'.Books i id (.exchanged id limit (sent ++ repliesOf calls) (received ++ textsOf calls))
        (texts ++ textsOf calls) ∧
      ∀ k call, calls[k]? = some call → call.returned = call.write (Text.Utf8.encode call.reply) ∧
        call.reported = texts ++ (textsOf calls).take k := by
  induction takes with
  | none n =>
      intro sent received texts books
      simpa [repliesOf, textsOf] using books
  | meanwhile passes _ ih => exact fun books => ih (books.passes passes)
  | @message n n₁ n' n'' call calls ran reported taken _ ih =>
      intro sent received texts books
      obtain ⟨handed, after, n₂, ran', handedOver⟩ := receive_records books taken
      obtain rfl : n₁ = n₂ := (Prod.mk.inj (ran.symm.trans ran')).1
      obtain ⟨rest, each⟩ := ih after
      have shape : textsOf (call :: calls) = call.text :: textsOf calls := rfl
      have shape' : repliesOf (call :: calls) = writtenOf call.reply call.returned ++
          repliesOf calls := rfl
      rw [List.append_assoc, List.append_assoc, List.append_assoc, List.singleton_append] at rest
      rw [shape, shape']
      refine ⟨rest, fun k other found => ?_⟩
      cases k with
      | zero =>
          obtain rfl : call = other := Option.some.inj found
          exact ⟨handed, by rw [reported, handedOver.keeps.asked, List.take_zero, List.append_nil]⟩
      | succ k =>
          obtain ⟨handed', reported'⟩ := each k other found
          exact ⟨handed',
            by rw [reported', List.append_assoc, List.singleton_append, List.take_succ_cons]⟩

/-! ## A message that cannot be translated -/

/-- The frames of a server. -/
def storeOf (n : Network) (j : Nat) : Option Store := (n.servers[j]?).map Server.store

theorem storeOf_modifyServer (change : Server → Server)
    (same : ∀ s, n.servers[i]? = some s → (change s).store = s.store) (j : Nat) :
    (n.modifyServer i change).storeOf j = n.storeOf j := by
  rw [storeOf, modifyServer, Array.getElem?_modify, storeOf]
  split
  · rename_i is
    subst is
    cases found : n.servers[i]? with
    | none => rfl
    | some s => exact congrArg some (same s found)
  · rfl

theorem storeOf_modifyPeer (change : Peer.Table → Peer.Table) (j : Nat) :
    (n.modifyPeer i change).storeOf j = n.storeOf j :=
  storeOf_modifyServer (fun s => { s with peer := change s.peer }) (fun _ _ => rfl) j

/-- Behind the end of a session only the table changes, and no connection is removed. -/
theorem answeredWith_store (text reply : String) (written : Except Fault α) {policy : StackPolicy}
    {m : Machine Network} {s : Server}
    (back : (seatedAgain i (.connection id) (m.answered policy)).servers[i]? = some s) :
    (∀ j, (answeredWith policy i id text reply written m).storeOf j =
      (seatedAgain i (.connection id) (m.answered policy)).storeOf j) ∧
    ∃ t, (answeredWith policy i id text reply written m).servers[i]? = some { s with peer := t } ∧
      ∀ other, (t.find? other).isSome = (s.peer.find? other).isSome := by
  unfold answeredWith
  cases written with
  | error fault =>
    exact ⟨fun j => storeOf_modifyPeer _ j, _, servers_modifyPeer back _, fun _ => rfl⟩
  | ok a =>
      exact ⟨fun j => (storeOf_modifyPeer _ j).trans (storeOf_modifyPeer _ j), _,
        servers_modifyPeer (servers_modifyPeer back _) _, fun other =>
          s.peer.isSome_find?_update id other fun e => { e with client := e.client.noteSent reply }⟩

/-- A message that cannot be translated binds nothing, on any server, and removes no connection; its
marker is all that it adds to the stack whose text is the reply. -/
theorem receive_untranslated (host : Host Network) (write : Bytes → Except Fault α) {s : Server}
    {session : Session} {fault : Fault}
    (found : (n.modifyPeer i (·.noteReceived id text)).servers[i]? = some s)
    (idle : s.idle.lookup (.connection id) = some session)
    (failed : translation s.settings.language text (n.machineAt i s id text session) =
      .error fault) :
    ∃ (n' : Network) (s' : Server) (reply : String),
      receive host write n i id text = (n', .ok (reply, write (Text.Utf8.encode reply))) ∧
      reply = (host.encoder (n.machineAt i s id text session)).script
        (session.values ++ [marker fault]) ∧
      (∀ j, n'.storeOf j = n.storeOf j) ∧
      n'.servers[i]? = some s' ∧ s'.settings = s.settings ∧
      s'.idle.lookup (.connection id) = some { session with
        stack :=
  if s.settings.stackPolicy = .consumeOnReply then [] else marker fault :: session.stack } ∧
      ∀ other, (s'.peer.find? other).isSome = (s.peer.find? other).isSome := by
  let m : Machine Network := (n.machineAt i s id text session).push (marker fault)
  let answered := m.answered s.settings.stackPolicy
  have received := receive_of_handled host write id text found idle (.untranslated failed)
  have world : answered.common.world =
      (n.modifyPeer i (·.noteReceived id text)).modifyServer i fun _ => s.vacated
        (.connection id) := by
    have same : answered.common.world = (n.machineAt i s id text session).common.world := by
      unfold answered Machine.answered
      split <;> rfl
    exact same.trans world_machineOf
  have store : answered.common.store = s.store := by
    have same : answered.common.store = (n.machineAt i s id text session).common.store := by
      unfold answered Machine.answered
      split <;> rfl
    exact same.trans store_machineOf
  have stack : answered.session = { session with
      stack := if s.settings.stackPolicy = .consumeOnReply then []
        else marker fault :: session.stack } := by
    unfold answered Machine.answered
    split <;> rfl
  have back : (seatedAgain i (.connection id) answered).servers[i]? =
      some (resumed (.connection id) answered (s.vacated (.connection id))) :=
    servers_modifyServer (world ▸ servers_modifyServer found _) _
  have stores : ∀ j, (seatedAgain i (.connection id) answered).storeOf j = n.storeOf j := by
    intro j
    refine (storeOf_modifyServer _ (fun t there => ?_) j).trans ?_
    · rw [world, servers_modifyServer found] at there
      cases there
      exact store
    · rw [world]
      refine (storeOf_modifyServer _ (fun t there => ?_) j).trans (storeOf_modifyPeer _ j)
      obtain rfl : s = t := Option.some.inj (found.symm.trans there)
      rfl
  have idle' : (resumed (.connection id) answered (s.vacated (.connection id))).idle.lookup
      (.connection id) = some answered.session := by
    rw [resumed, Association.lookup_put, if_pos rfl]
  have reply : m.written host =
      (host.encoder (n.machineAt i s id text session)).script
      (session.values ++ [marker fault]) := by
    have values : m.session.values = session.values ++ [marker fault] := List.reverse_cons
    rw [Machine.written, values]
    rfl
  obtain ⟨same, t, there, live⟩ :=
    answeredWith_store text (m.written host) (write (Text.Utf8.encode (m.written host))) back
  rw [stack] at idle'
  exact ⟨_, _, _, received, reply, fun j => (same j).trans (stores j), there, rfl, idle', live⟩

/-! ## The books -/

/-- On a new accepted connection, whatever the scripts do and whichever replies can be written: if
every message is answered and the connection is not removed, the last messages and the last replies
that were written are kept, as many as the limit allows; the messages are reported in their order,
each of them when its reply has been handed over and before the next message is taken; and a call
fails if and only if its reply could not be written.  A message that cannot be translated binds
nothing, on any server, and adds its marker to the stack and nothing else. -/
theorem messages_recorded :
    (∀ (n n' : Network) (i : Nat) (id : ConnectionId) (limit : Nat) (calls : List (Taken α)),
      (n.peer i).find? id = some ⟨.new id .inbound limit, none⟩ → id < (n.peer i).nextId →
      Takes i id n calls n' → ((n'.peer i).find? id).isSome = true →
      (∃ c, (n'.peer i).find? id = some ⟨c, none⟩ ∧ c.received = (textsOf calls).rtake limit ∧
        c.sent = (repliesOf calls).rtake limit) ∧
      (n'.peer i).asked id = (n.peer i).asked id ++ textsOf calls ∧
      ∀ k call, calls[k]? = some call →
        call.returned = call.write (Text.Utf8.encode call.reply) ∧
        call.reported = (n.peer i).asked id ++ (textsOf calls).take k) ∧
    ∀ (host : Host Network) (write : Bytes → Except Fault α) (n : Network) (i : Nat)
      (id : ConnectionId) (text : String) (s : Server) (session : Session) (fault : Fault),
      (n.modifyPeer i (·.noteReceived id text)).servers[i]? = some s →
      s.idle.lookup (.connection id) = some session →
      translation s.settings.language text (n.machineAt i s id text session) = .error fault →
      ∃ (n' : Network) (s' : Server) (reply : String),
        receive host write n i id text = (n', .ok (reply, write (Text.Utf8.encode reply))) ∧
        reply = (host.encoder (n.machineAt i s id text session)).script
          (session.values ++ [marker fault]) ∧
        (∀ j, n'.storeOf j = n.storeOf j) ∧ n'.servers[i]? = some s' ∧
        s'.idle.lookup (.connection id) = some { session with
          stack :=
  if s.settings.stackPolicy = .consumeOnReply then [] else marker fault :: session.stack } := by
  constructor
  · intro n n' i id limit calls accepted numbered takes stays
    have books : n.Books i id (.exchanged id limit [] []) ((n.peer i).asked id) := by
      cases found : n.servers[i]? with
      | none =>
          rw [Network.peer, found] at accepted
          cases accepted
      | some s =>
          rw [Network.peer, found] at accepted numbered ⊢
          refine ⟨s, found, numbered, fun e there => ?_, rfl⟩
          rw [Client.exchanged_nil]
          exact (Option.some.inj (accepted.symm.trans there)).symm
    obtain ⟨books', each⟩ := takes_records takes books
    obtain ⟨e, there⟩ := Option.isSome_iff_exists.mp stays
    refine ⟨⟨.exchanged id limit (repliesOf calls) (textsOf calls), ?_, rfl, rfl⟩,
      books'.keeps.asked, each⟩
    exact there.trans (congrArg some (books'.keeps.entry e there))
  · intro host write n i id text s session fault found idle failed
    obtain ⟨n', s', reply, received, is, stores, there, -, idle', -⟩ :=
      receive_untranslated host write found idle failed
    exact ⟨n', s', reply, received, is, stores, there, idle'⟩

/-! Two messages that are no scripts, of which only the first reply can be written, on a server that
keeps one message. -/

theorem translation_unreadable {σ : Type} (m : Machine σ) :
    ∃ fault, translation .pi "(" m = .error fault := by
  have cut : Script.tokenize "(" = .ok [⟨.symbol .lParen, ⟨1, 1⟩⟩, ⟨.finish, ⟨1, 2⟩⟩] := by cbv
  rw [translation, Script.parse, cut]
  exact ⟨_, rfl⟩

/-- The first server reads the compact language and has an idle session for its first connection. -/
def Reads (n : Network) : Prop :=
  ∃ s session, n.servers[0]? = some s ∧ s.settings.language = .pi ∧
    s.idle.lookup (.connection 1) = some session ∧
    (s.peer.find? 1).isSome = true

theorem Reads.takes (h : n.Reads) (write : Bytes → Except Fault α) :
    ∃ n' call, n'.Reads ∧ call.text = "(" ∧
    call.write = write ∧ ∀ calls n'', Takes 0 1 n' calls n'' → Takes 0 1 n (call :: calls) n'' := by
  obtain ⟨s, session, found, language, idle, live⟩ := h
  have noted := servers_modifyPeer found (·.noteReceived 1 "(")
  obtain ⟨fault, failed⟩ := translation_unreadable
    (n.machineAt 0 { s with peer := s.peer.noteReceived 1 "(" } 1 "(" session)
  obtain ⟨n', s', reply, received, -, -, there, settings, idle', live'⟩ :=
    receive_untranslated host write noted idle (language.symm ▸ failed)
  obtain ⟨n₁, ran, -, -⟩ := receive_returns received
  refine ⟨n', ⟨"(", write, reply, write (Text.Utf8.encode reply), (n₁.peer 0).asked 1⟩, ?_, rfl,
    rfl, fun calls n'' more => ?_⟩
  · refine ⟨s', _, there, settings ▸ language, idle', (live' 1).trans ?_⟩
    exact (s.peer.isSome_find?_update 1 1 fun e => { e with client := e.client.noteReceived "("
      }).trans live
  · exact .message ran rfl received more

/-- The network of a server that keeps one message and has accepted one connection. -/
def keepingOne : Option Network :=
  (Server.new { Settings.loopback with historyLimit := 1 } .standard 0).toOption.map fun s =>
    ({ empty false with servers := #[s] }.accept (.server 0)).1

set_option maxRecDepth 20000 in
theorem keepingOne_reads : (keepingOne.bind fun n => n.servers[0]?.bind fun s =>
    (s.idle.lookup (.connection 1)).map fun _ =>
      (s.settings.language, s.peer.find? 1, s.peer.nextId, s.peer.asked 1)) =
      some (.pi, some ⟨.new 1 .inbound 1, none⟩, 2, []) := by cbv

theorem messages_recorded_unreadable : ∃ (n n' : Network) (calls : List (Taken Unit)) (c : Client),
    Takes 0 1 n calls n' ∧ textsOf calls = ["(", "("] ∧ (n'.peer 0).find? 1 = some ⟨c, none⟩ ∧
      c.received = ["("] ∧ c.sent.length = 1 ∧ (n'.peer 0).asked 1 = ["(", "("] := by
  obtain ⟨n, -, reached⟩ := Option.bind_eq_some_iff.mp keepingOne_reads
  obtain ⟨s, found, reached⟩ := Option.bind_eq_some_iff.mp reached
  obtain ⟨session, idle, reached⟩ := Option.map_eq_some_iff.mp reached
  obtain ⟨language, reached⟩ := Prod.mk.inj reached
  obtain ⟨accepted, reached⟩ := Prod.mk.inj reached
  obtain ⟨numbered, asked⟩ := Prod.mk.inj reached
  have peer : n.peer 0 = s.peer := by rw [Network.peer, found]; rfl
  have reads : n.Reads := ⟨s, session, found, language, idle, accepted ▸ rfl⟩
  obtain ⟨n₁, first, reads₁, text, write, step⟩ := reads.takes fun _ => (.ok () : Except Fault Unit)
  obtain ⟨n₂, second, reads₂, text', write', step'⟩ :=
    reads₁.takes fun _ => (.error (.transport "wire cut") : Except Fault Unit)
  have takes := step _ _ (step' _ _ (.none n₂))
  have stays : ((n₂.peer 0).find? 1).isSome = true := by
    obtain ⟨s₂, -, found₂, -, -, live⟩ := reads₂
    rwa [Network.peer, found₂]
  obtain ⟨⟨c, there, received, sent⟩, reported, each⟩ :=
    messages_recorded.1 n n₂ 0 1 1 [first, second]
    (by rw [peer, accepted]) (by rw [peer, numbered]; decide) takes stays
  have texts : textsOf [first, second] = ["(", "("] := by
    rw [textsOf, List.map_cons, List.map_singleton, text, text']
  have returned : first.returned = .ok () := by rw [(each 0 first rfl).1, write]
  have returned' : second.returned = .error (.transport "wire cut") := by
    rw [(each 1 second rfl).1, write']
  refine ⟨n, n₂, _, c, takes, texts, there, ?_, ?_, ?_⟩
  · rw [received, texts]
    rfl
  · rw [sent, repliesOf, List.flatMap_cons, List.flatMap_singleton, returned, returned']
    rfl
  · rw [reported, peer, asked, texts]
    rfl

end Network

end PeerScript
