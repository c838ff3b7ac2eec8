import PeerScript.Proofs.Conversations.Histories
import PeerScript.Proofs.Framing
import PeerScript.Proofs.Policies

/-!
# The two ends of a conversation

What is on its way on a link are frames of texts, and the oldest of them is the next that is read.
Who has opened the connection takes each reply for the oldest text that was not answered yet; who
has accepted it answers in a session, which is mirrored by one that is served alone.
-/

set_option autoImplicit false

namespace PeerScript

open Service (Server Seat Sitting IsReserved)
open Peer (ConnectionId)
open Wire (Bytes Outcome Slot Ticket)

/-! ## Streams -/

namespace Wire

variable {stream rest frame : Bytes} {text : String} {texts : List String}

/-- A stream consists of the frames of some texts. -/
inductive Carries : Bytes → List String → Prop
  | nil : Carries [] []
  | cons {text : String} {texts : List String} {frame rest : Bytes} :
      Frame.write (Text.Utf8.encode text) = .ok frame → Carries rest texts →
      Carries (frame ++ rest) (text :: texts)

/-- One more text is written behind the others. -/
theorem Carries.snoc (carries : Carries stream texts)
    (written : Frame.write (Text.Utf8.encode text) = .ok frame) :
    Carries (stream ++ frame) (texts ++ [text]) := by
  induction carries with
  | nil => simpa using Carries.cons written .nil
  | cons first _ ih =>
      rw [List.append_assoc]
      exact .cons first ih

/-- The oldest text is read first. -/
theorem Carries.read (carries : Carries stream (text :: texts)) :
    ∃ rest, Frame.read stream = .ok (Text.Utf8.encode text, rest) ∧ Carries rest texts := by
  cases carries with
  | @cons _ _ frame rest written others =>
      refine ⟨rest, ?_, others⟩
      unfold Frame.write at written
      split at written
      · exact nomatch written
      · rename_i fits
        cases written
        exact Frame.read_append (Nat.le_of_not_lt fits) rest

theorem Carries.read_nil (carries : Carries stream []) :
    Frame.read stream = .error .shortLength := by
  cases carries
  rfl

end Wire

namespace Network

variable {n n' : Network} {c : Connection}

/-! ## Outcomes -/

section Outcomes

variable {more : List Outcome} {ticket : Ticket} {result : Except Fault String}

/-- A request ends once. -/
theorem outcome?_stays (ended : n.outcome? ticket = some result)
    (outcomes : n'.outcomes = n.outcomes ++ more) : n'.outcome? ticket = some result := by
  obtain ⟨o, found, rfl⟩ := Option.map_eq_some_iff.mp ended
  rw [outcome?, outcomes, List.find?_append, found]
  rfl

/-- A request that has not ended yet ends as is told next. -/
theorem outcome?_next (waits : ∀ o ∈ n.outcomes, o.ticket ≠ ticket)
    (outcomes : n'.outcomes = n.outcomes ++ more) :
    n'.outcome? ticket = (more.find? (·.ticket == ticket)).map Outcome.result := by
  have none : n.outcomes.find? (·.ticket == ticket) = none :=
    List.find?_eq_none.mpr fun o mem => by simpa using waits o mem
  rw [outcome?, outcomes, List.find?_append, none, Option.none_or]

theorem outcome?_none (waits : ∀ o ∈ n.outcomes, o.ticket ≠ ticket) :
    n.outcome? ticket = none := by
  rw [outcome?_next waits (List.append_nil n.outcomes).symm]
  rfl

end Outcomes

/-! ## Who has opened the connection -/

/-- The replies that were heard on a connection: each was taken for the oldest of the slots that
were left, and the requests among the others wait, or else they have failed. -/
structure Connection.Asks (c : Connection) (slots : List Slot) (replies : List String)
    (n : Network) : Prop where
  heard : (n.peer c.opener).heard c.id = replies
  fewer : replies.length ≤ slots.length
  answered : ∀ (m : Nat) (ticket : Ticket) (reply : String), slots[m]? = some (some ticket) →
    replies[m]? = some reply → n.outcome? ticket = some (.ok reply)
  waiting : (∃ r, n.kind? c.opener c.id = some (some r) ∧
      r.pending.slots = slots.drop replies.length) ∨
    n.kind? c.opener c.id = none ∧ ∀ ticket, some ticket ∈ slots.drop replies.length →
      ∃ fault, n.outcome? ticket = some (.error fault)

namespace Connection.Asks

variable {slots : List Slot} {replies : List String} (h : c.Asks slots replies n)

include h

/-- The slots of a connection that is live are those that are left. -/
theorem slots_of_live {r : Peer.Remote} (live : n.kind? c.opener c.id = some (some r)) :
    n.slots c.opener c.id = slots.drop replies.length := by
  rcases h.waiting with ⟨r', known, left⟩ | ⟨none, -⟩
  · rw [Network.slots, known]
    exact left
  · cases live.symm.trans none

/-- Nothing was heard and no request was answered. -/
theorem quiet (regular : n.IsRegular) (quiet : n.Quiet c.opener c.id n') :
    c.Asks slots replies n' := by
  obtain ⟨more, outcomes, errors⟩ := quiet.outcomes
  refine ⟨quiet.heard.trans h.heard, h.fewer, fun m ticket reply slot heard =>
    outcome?_stays (h.answered m ticket reply slot heard) outcomes, ?_⟩
  rcases h.waiting with ⟨r, live, left⟩ | ⟨gone, failed⟩
  · rcases quiet.kind with same | ⟨gone, ended⟩
    · exact .inl ⟨r, same.trans live, left⟩
    · refine .inr ⟨gone, fun ticket mem => ?_⟩
      have waits : ticket ∈ n.tickets c.opener c.id := by
        rw [tickets, h.slots_of_live live]
        exact List.mem_filterMap.mpr ⟨_, mem, rfl⟩
      have waiting := (regular.waiting _ _ ticket waits).2
      obtain ⟨o, mem, same⟩ := ended ticket waits
      rw [outcomes, List.mem_append] at mem
      have among := mem.resolve_left fun before => waiting o before same
      rw [outcome?_next waiting outcomes]
      cases found : more.find? (·.ticket == ticket) with
      | none => simpa [same] using List.find?_eq_none.mp found o among
      | some o' =>
          have same' : o'.ticket = ticket := by simpa using List.find?_some found
          obtain ⟨fault, failed⟩ := errors o' (List.mem_of_find?_eq_some found) (same' ▸ waits)
          exact ⟨fault, congrArg some failed⟩
  · refine .inr ⟨?_, fun ticket mem => ?_⟩
    · rcases quiet.kind with same | ⟨none, -⟩
      · exact same.trans gone
      · exact none
    · obtain ⟨fault, ended⟩ := failed ticket mem
      exact ⟨fault, outcome?_stays ended outcomes⟩

/-- One more text has been sent. -/
theorem sent {r : Peer.Remote} {slot : Slot} (live : n.kind? c.opener c.id = some (some r))
    (heard : (n'.peer c.opener).heard c.id = (n.peer c.opener).heard c.id)
    (pushed : n'.kind? c.opener c.id = some (some { r with pending := r.pending.push slot }))
    (outcomes : n'.outcomes = n.outcomes) : c.Asks (slots ++ [slot]) replies n' := by
  have ended : ∀ ticket, n'.outcome? ticket = n.outcome? ticket := fun ticket => by
    rw [outcome?, outcomes, outcome?]
  refine ⟨heard.trans h.heard, ?_, fun m ticket reply known told => ?_, .inl ⟨_, pushed, ?_⟩⟩
  · rw [List.length_append]
    exact Nat.le_add_right_of_le h.fewer
  · obtain ⟨lt, -⟩ := List.getElem?_eq_some_iff.mp told
    rw [List.getElem?_append_left (Nat.lt_of_lt_of_le lt h.fewer)] at known
    rw [ended]
    exact h.answered m ticket reply known told
  · rcases h.waiting with ⟨r', known, left⟩ | ⟨none, -⟩
    · obtain rfl : r = r' := Option.some.inj (Option.some.inj (live.symm.trans known))
      rw [List.drop_append_of_le_length h.fewer, ← left]
      rfl
    · cases live.symm.trans none

/-- One more reply is taken. -/
theorem taken (regular : n.IsRegular) {r : Peer.Remote} (reply : String)
    (live : n.kind? c.opener c.id = some (some r)) (more : replies.length < slots.length) :
    c.Asks slots (replies ++ [reply]) (n.take c.opener c.id reply) := by
  have left := h.slots_of_live live
  have outcomes : (n.take c.opener c.id reply).outcomes = _ := n.outcomes_take reply
  have first : slots.drop replies.length = slots[replies.length] :: slots.drop
      (replies.length + 1) := List.drop_eq_getElem_cons more
  refine ⟨?_, ?_, fun m ticket told known heard => ?_,
    .inl ⟨{ r with pending := ⟨r.pending.slots.tail⟩ }, ?_, ?_⟩⟩
  · have there : c.opener < n.servers.size := by
      by_contra absent
      rw [kind?_of_absent (Array.getElem?_eq_none (Nat.le_of_not_lt absent))] at live
      cases live
    rw [heard_take, if_pos ⟨rfl, rfl, there⟩, h.heard]
  · rw [List.length_append]
    exact more
  · by_cases before : m < replies.length
    · rw [List.getElem?_append_left before] at heard
      exact outcome?_stays (h.answered m ticket told known heard) outcomes
    · have last : m = replies.length := by
        obtain ⟨lt, -⟩ := List.getElem?_eq_some_iff.mp heard
        rw [List.length_append, List.length_singleton] at lt
        omega
      subst last
      rw [List.getElem?_concat_length] at heard
      cases heard
      have same : slots[replies.length] = some ticket :=
        (List.getElem?_eq_some_iff.mp known).2
      have waits : ticket ∈ n.tickets c.opener c.id := by
        rw [tickets, left, first, same]
        exact List.mem_cons_self
      rw [outcome?_next (regular.waiting _ _ ticket waits).2 outcomes, left, first, same]
      simp
  · rw [kind?_take, if_pos ⟨rfl, rfl⟩, live]
    rfl
  · rcases h.waiting with ⟨r', known, pending⟩ | ⟨none, -⟩
    · obtain rfl : r = r' := Option.some.inj (Option.some.inj (live.symm.trans known))
      rw [pending, List.length_append, List.tail_drop]
      rfl
    · cases live.symm.trans none

end Connection.Asks

/-! ## Who has accepted it -/

/-- The session that serves a connection, and one that a server with the same settings keeps on a
seat, can get hold of the same. -/
structure Mirrors (i : Nat) (seat : Seat) (n : Network) (i' : Nat) (seat' : Seat) (n' : Network) :
    Prop where
  sessions : ∃ p s t x y, n.servers[i]? = some s ∧ n'.servers[i']? = some t ∧
    s.idle.lookup seat = some x ∧ t.idle.lookup seat' = some y ∧ Sitting p s t x y ∧ s.Offers t ∧
    t.settings = s.settings

/-- A session that has just begun is mirrored by a new one of the same server. -/
theorem Mirrors.begins {i i' : Nat} {seat seat' : Seat} {s t : Server} {table : Peer.Table}
    (same : s = { t with peer := table }) (offers : t.OffersBuiltins)
    (natural : t.registry.IsNatural) (found : n.servers[i]? = some (s.seated seat))
    (found' : n'.servers[i']? = some (t.seated seat')) : Mirrors i seat n i' seat' n' := by
  subst same
  have both : Server.Offers { t with peer := table } t := (offers.offers rfl).kept (.refl _) rfl
    (.refl _) rfl
  have sitting := Sitting.new both natural offers.globals offers.globals seat seat'
  refine ⟨_, _, _, _, _, found, found', ?_, ?_, sitting, both.seated seat seat', rfl⟩
  · exact (Association.lookup_put ..).trans (if_pos rfl)
  · exact (Association.lookup_put ..).trans (if_pos rfl)

namespace Mirrors

variable {i i' : Nat} {seat seat' : Seat} {n₀ : Network}

/-- The session has been left alone. -/
theorem leaves (h : Mirrors i seat n i' seat' n₀) (leaves : n.Leaves (· = seat) i n') :
    Mirrors i seat n' i' seat' n₀ := by
  obtain ⟨p, s, t, x, y, found, found', idle, idle', sitting, offers, settings⟩ := h.sessions
  obtain ⟨s', there, alone⟩ := leaves s found
  refine ⟨p, s', t, x, y, there, found', (alone.idle seat rfl).trans idle, idle', ?_, ?_,
    settings.trans alone.settings.symm⟩
  · exact sitting.spared (alone.spared seat x rfl idle) (.refl _ _) alone.serial (Nat.le_refl _)
  · exact offers.kept alone.extends_ alone.root (.refl _) rfl

/-- A text without reserved names has the same answer in both sessions, and nothing happens beyond
the servers that answer it. -/
theorem evaluate (host host' : Host Network) (h : Mirrors i seat n i' seat' n₀) {text : String}
    (avoids : Script.Avoids IsReserved text) :
    ∃ s n₁ answer, (∀ t, n.servers[i]? = some t → s.peer = t.peer) ∧
      Network.evaluate host n i seat text = (n.modifyServer i fun _ => s, answer) ∧
      Network.evaluate host' n₀ i' seat' text = (n₁, answer) ∧
      Mirrors i seat (n.modifyServer i fun _ => s) i' seat' n₁ := by
  obtain ⟨p, s, t, x, y, found, found', idle, idle', sitting, offers, settings⟩ := h.sessions
  obtain ⟨q, m, m', answer, machines, replied, replied'⟩ := evaluate_alike host host' sitting
    offers found found' idle idle' (by rw [settings]) (by rw [settings])
    (fun _ => False) (fun _ _ _ => id) avoids
  have back : seatedAgain i seat m =
      n.modifyServer i fun _ => resumed seat m (s.vacated seat) := by
    rw [seatedAgain, machines.kept_left.world.trans (Server.common_world _ _),
      modifyServer_modifyServer]
  have back' : seatedAgain i' seat' m' =
      n₀.modifyServer i' fun _ => resumed seat' m' (t.vacated seat') := by
    rw [seatedAgain, machines.kept_right.world.trans (Server.common_world _ _),
      modifyServer_modifyServer]
  rw [back] at replied
  rw [back'] at replied'
  refine ⟨_, _, answer, fun other there => ?_, replied, replied', ⟨q, _, _, m.session, m'.session,
    servers_modifyServer found _, servers_modifyServer found' _, ?_, ?_,
    Service.sitting_of_machines machines sitting.rest rfl rfl rfl rfl, ?_, settings⟩⟩
  · obtain rfl : s = other := Option.some.inj (found.symm.trans there)
    rfl
  · exact (Association.lookup_put ..).trans (if_pos rfl)
  · exact (Association.lookup_put ..).trans (if_pos rfl)
  · have store : (n.machineOf i s seat x).common.store = s.store := Server.common_store _ _
    have store' : (n₀.machineOf i' t seat' y).common.store = t.store := Server.common_store _ _
    have root := Store.bindings_congr (machines.kept_left.frames 0 (.inl rfl))
    have root' := Store.bindings_congr (machines.kept_right.frames 0 (.inl rfl))
    exact offers.kept (store ▸ machines.kept_left.grown) (store ▸ root)
      (store' ▸ machines.kept_right.grown) (store' ▸ root')

end Mirrors

/-- The replies of the server that accepts a connection to some texts, when they are asked one after
the other in a new session on a seat, and nothing else happens. -/
def Connection.replies (c : Connection) (start : Network) (seat : Seat) (texts : List String) :
    List (Except Stop String) :=
  repliesTo host (start.modifyServer c.acceptor (·.seated seat)) c.acceptor seat texts

/-- The server has answered some texts, and goes on with others, as it would if it was asked
alone. -/
structure Connection.Serves (c : Connection) (start : Network) (seat : Seat)
    (read waiting answers : List String) (e : End) (n : Network) : Prop where
  isOpen : e.isOpen = true
  arrived : Wire.Carries e.arrived waiting
  as_many : answers.length = read.length
  mirrors : ∃ n₀, Mirrors c.acceptor c.seat n c.acceptor seat n₀ ∧ ∀ more,
    c.replies start seat (read ++ more) = answers.map .ok ++ repliesTo host n₀ c.acceptor seat more

/-- The server answers no more texts: the connection has gone, or the next text broke its
session. -/
structure Connection.Stops (c : Connection) (start : Network) (seat : Seat)
    (read answers : List String) (n : Network) : Prop where
  vacant : ∃ s, n.servers[c.acceptor]? = some s ∧ s.idle.lookup c.seat = none
  fewer : answers.length ≤ read.length
  told : ∀ more, answers.map .ok <+: c.replies start seat (read ++ more)
  reason : n.kind? c.acceptor c.guest = none ∨
    ∃ stop, ∀ more, answers.map .ok ++ [.error stop] <+: c.replies start seat (read ++ more)

/-- The server has read some texts, and others wait; it has given some answers, and it goes on or
has stopped. -/
structure Connection.Attends (c : Connection) (start : Network) (seat : Seat)
    (read waiting answers : List String) (e : End) (n : Network) : Prop where
  kind : n.kind? c.acceptor c.guest = some none ∨ n.kind? c.acceptor c.guest = none
  session : c.Serves start seat read waiting answers e n ∨ c.Stops start seat read answers n

namespace Connection

variable {start : Network} {seat : Seat} {read waiting answers : List String} {e : End}

theorem Serves.leaves (h : c.Serves start seat read waiting answers e n)
    (leaves : n.Leaves (· = c.seat) c.acceptor n') :
    c.Serves start seat read waiting answers e n' := by
  obtain ⟨n₀, mirrors, replies⟩ := h.mirrors
  exact ⟨h.isOpen, h.arrived, h.as_many, n₀, mirrors.leaves leaves, replies⟩

/-- The server answers the next text as it would if it was asked alone, and besides it notes what
it has received and sent. -/
theorem Serves.receive {α : Type} (host : Host Network) (write : Bytes → Except Fault α)
    {text : String} (h : c.Serves start seat read (text :: waiting) answers e n)
    (avoids : Script.Avoids IsReserved text) :
    ∃ m n₁ answer, Network.receive host write n c.acceptor c.guest text =
        (m, answer.map fun reply => (reply, write (Text.Utf8.encode reply))) ∧ n.Notes m ∧
      m.links = n.links ∧ Mirrors c.acceptor c.seat m c.acceptor seat n₁ ∧
      ∀ more, c.replies start seat (read ++ [text] ++ more) =
        answers.map .ok ++ answer :: repliesTo Network.host n₁ c.acceptor seat more := by
  obtain ⟨n₀, mirrors, replies⟩ := h.mirrors
  have received : n.Leaves (· = c.seat) c.acceptor
      (n.modifyPeer c.acceptor (·.noteReceived c.guest text)) := leaves_modifyPeer _ rfl
  obtain ⟨s, n₁, answer, peer, evaluated, evaluated', mirrors⟩ :=
    (mirrors.leaves received).evaluate host Network.host avoids
  have told : ∀ more, c.replies start seat (read ++ [text] ++ more) =
      answers.map .ok ++ answer :: repliesTo Network.host n₁ c.acceptor seat more := fun more => by
    rw [List.append_assoc, replies, List.singleton_append, repliesTo_cons, evaluated']
  have notes := (Notes.modifyPeer n c.acceptor (·.notes_noteReceived c.guest text)).trans
    (.modifyServer peer)
  have links : ((n.modifyPeer c.acceptor (·.noteReceived c.guest text)).modifyServer c.acceptor
      fun _ => s).links = n.links := rfl
  have raises := fun m => Notes.modifyPeer m c.acceptor (·.notes_request c.guest text)
  unfold Network.receive
  rw [show Network.evaluate host _ c.acceptor (.connection c.guest) text = _ from evaluated]
  generalize (n.modifyPeer c.acceptor (·.noteReceived c.guest text)).modifyServer c.acceptor
    (fun _ => s) = m at notes links mirrors
  cases answer with
  | error stop => exact ⟨m, n₁, .error stop, rfl, notes, links, mirrors, told⟩
  | ok reply =>
      cases written : write (Text.Utf8.encode reply) with
      | error fault =>
          refine ⟨_, n₁, .ok reply, ?_, notes.trans (raises m), links, mirrors.leaves ?_, told⟩
          · simp only [Except.map, written]
          · exact leaves_modifyPeer _ rfl
      | ok frame =>
          have sent := Notes.modifyPeer m c.acceptor (·.notes_noteSent c.guest reply)
          refine ⟨_, n₁, .ok reply, ?_, (notes.trans sent).trans (raises _), links, ?_, told⟩
          · simp only [Except.map, written]
          · exact mirrors.leaves ((leaves_modifyPeer _ rfl).trans (leaves_modifyPeer _ rfl))

namespace Attends

variable (h : c.Attends start seat read waiting answers e n)

include h

theorem found : ∃ s, n.servers[c.acceptor]? = some s := by
  rcases h.session with serves | stops
  · obtain ⟨_, ⟨_, s, _, _, _, found, _⟩, _⟩ := serves.mirrors
    exact ⟨s, found⟩
  · obtain ⟨s, found, _⟩ := stops.vacant
    exact ⟨s, found⟩

theorem fewer : answers.length ≤ read.length := by
  rcases h.session with serves | stops
  · exact Nat.le_of_eq serves.as_many
  · exact stops.fewer

/-- What has been answered are the first of the replies. -/
theorem told (more : List String) : answers.map .ok <+: c.replies start seat (read ++ more) := by
  rcases h.session with serves | stops
  · obtain ⟨n₀, -, replies⟩ := serves.mirrors
    rw [replies]
    exact List.prefix_append _ _
  · exact stops.told more

/-- The session was left alone, and the connection has gone if anything. -/
theorem leaves (leaves : n.Leaves (· = c.seat) c.acceptor n')
    (kind : n'.kind? c.acceptor c.guest = n.kind? c.acceptor c.guest ∨
      n'.kind? c.acceptor c.guest = none) :
    c.Attends start seat read waiting answers e n' where
  kind := by
    rcases kind with same | gone
    · rw [same]
      exact h.kind
    · exact .inr gone
  session := by
    refine h.session.imp (·.leaves leaves) fun stops => ?_
    obtain ⟨s, found, vacant⟩ := stops.vacant
    obtain ⟨s', there, alone⟩ := leaves s found
    refine ⟨⟨s', there, (alone.idle _ rfl).trans vacant⟩, stops.fewer, stops.told, ?_⟩
    refine stops.reason.imp_left fun before => ?_
    rcases kind with same | gone
    · exact same.trans before
    · exact gone

/-- One more text has arrived. -/
theorem arrived {text : String} {e' : End} (isOpen : e'.isOpen = e.isOpen)
    (more : Wire.Carries e.arrived waiting → Wire.Carries e'.arrived (waiting ++ [text])) :
    c.Attends start seat read (waiting ++ [text]) answers e' n where
  kind := h.kind
  session := h.session.imp_left fun serves =>
    ⟨isOpen.trans serves.isOpen, more serves.arrived, serves.as_many, serves.mirrors⟩

/-- The connection has gone, and its session with it. -/
theorem gone {e' : End}
    (vacant : ∃ s, n'.servers[c.acceptor]? = some s ∧ s.idle.lookup c.seat = none)
    (kind : n'.kind? c.acceptor c.guest = none) :
    c.Attends start seat read waiting answers e' n' where
  kind := .inr kind
  session := .inr ⟨vacant, h.fewer, h.told, .inl kind⟩

end Attends

end Connection

end Network

end PeerScript
