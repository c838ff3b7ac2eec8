import PeerScript.Proofs.Conversations.Standing

/-!
# Remote conversations are local ones

Texts are sent over a connection, in any order with what else goes on in the network, and scripts of
other connections may run, bind names, send and wait in between.  `conversations_local` says that
what is heard on the connection are the replies that the server gives when it is asked the same
texts directly, one after the other, in one new session; and a request gets the reply to its text.
When both ends have nothing more to do, all replies have been heard.
-/

set_option autoImplicit false

namespace PeerScript.Network

open Service (Server Seat IsReserved)
open Peer (ConnectionId)
open Wire (Slot Ticket)

variable {n : Network} {c : Connection} {start : Network} {seat : Seat}
  {sends : List (String × Slot)} {l : Link} {heard answers read waiting : List String}

/-- What is heard on a connection are the replies to the texts that were sent there, as the server
gives them when it is asked alone: the first of them at any time, and in the end all, unless a text
breaks the session or the connection is lost. -/
structure Connection.Refines (c : Connection) (start : Network) (seat : Seat)
    (sends : List (String × Slot)) (n : Network) : Prop where
  heard : ((n.peer c.opener).heard c.id).map .ok <+: c.replies start seat (sends.map (·.1))
  returned : ∀ (m : Nat) (ticket : Ticket) (reply : String),
    (sends.map (·.2))[m]? = some (some ticket) →
      (n.outcome? ticket = some (.ok reply) ↔ ((n.peer c.opener).heard c.id)[m]? = some reply)
  all : n.kind? c.opener c.id ≠ none → n.kind? c.acceptor c.guest ≠ none →
    (∀ stop, .error stop ∉ c.replies start seat (sends.map (·.1))) →
    (∀ side, endStep? host n c.link side = none) →
      ((n.peer c.opener).heard c.id).map .ok = c.replies start seat (sends.map (·.1))

/-- What was sent on a connection, and what else has happened, leaves the conversation standing. -/
theorem Converses.standing (converses : Converses c start sends n)
    (natural : ∀ s, start.servers[c.acceptor]? = some s → s.registry.IsNatural)
    (avoids : ∀ send ∈ sends, Script.Avoids IsReserved send.1) (seat : Seat) :
    ∃ read waiting answers heard l,
      Standing c start seat sends read waiting answers heard l n := by
  induction converses with
  | opened regular there connected last joins =>
      obtain ⟨l, standing⟩ := standing_opened regular there connected last joins natural seat
      exact ⟨_, _, _, _, l, standing⟩
  | sent _ sent ih =>
      obtain ⟨_, _, _, _, _, standing⟩ :=
        ih fun send mem => avoids send (List.mem_append_left _ mem)
      obtain ⟨l, standing⟩ := standing.sent sent
      exact ⟨_, _, _, _, l, standing⟩
  | @step _ _ _ side steps _ step regular ih =>
      obtain ⟨_, _, _, _, _, standing⟩ := ih avoids
      cases side with
      | opener =>
          obtain ⟨_, _, standing⟩ := standing.opener_step step regular
          exact ⟨_, _, _, _, _, standing⟩
      | acceptor =>
          obtain ⟨_, _, _, _, standing⟩ := standing.acceptor_step avoids step regular
          exact ⟨_, _, _, _, _, standing⟩
  | meanwhile _ aside regular ih =>
      obtain ⟨_, _, _, _, _, standing⟩ := ih avoids
      exact ⟨_, _, _, _, _, standing.aside regular aside⟩

namespace Standing

variable (h : Standing c start seat sends read waiting answers heard l n)

include h

/-- What has been heard are the first of the replies. -/
theorem prefix_replies : heard.map .ok <+: c.replies start seat (sends.map (·.1)) := by
  rw [h.texts]
  exact (h.told.map _).trans (h.attends.told waiting)

/-- A request has ended with the reply to its text when this was heard. -/
theorem returned_iff {m : Nat} {ticket : Ticket} {reply : String}
    (slot : (sends.map (·.2))[m]? = some (some ticket)) :
    n.outcome? ticket = some (.ok reply) ↔ heard[m]? = some reply := by
  constructor
  · intro ended
    cases told : heard[m]? with
    | some reply' =>
        cases (h.asks.answered m ticket reply' slot told).symm.trans ended
        rfl
    | none =>
        have later : heard.length ≤ m := List.getElem?_eq_none_iff.mp told
        have left : some ticket ∈ (sends.map (·.2)).drop heard.length := by
          refine List.mem_of_getElem? (i := m - heard.length) ?_
          rw [List.getElem?_drop, Nat.add_sub_cancel' later]
          exact slot
        rcases h.asks.waiting with ⟨r, live, slots⟩ | ⟨-, failed⟩
        · have waits : ticket ∈ n.tickets c.opener c.id := by
            rw [tickets, h.asks.slots_of_live live]
            exact List.mem_filterMap.mpr ⟨_, left, rfl⟩
          rw [outcome?_none (h.regular.waiting _ _ ticket waits).2] at ended
          cases ended
        · obtain ⟨fault, failed⟩ := failed ticket left
          cases failed.symm.trans ended
  · intro told
    exact h.asks.answered m ticket reply slot told

/-- Who has opened the connection has heard all answers when it has nothing more to do. -/
theorem heard_all (live : n.kind? c.opener c.id ≠ none)
    (rest : endStep? host n c.link .opener = none) : heard = answers := by
  have isOpen : (l.side .opener).isOpen = true := h.opened live
  rw [endStep?_server host .opener h.found h.opens, if_pos isOpen] at rest
  rcases h.asks.waiting with ⟨r, kind, -⟩ | ⟨gone, -⟩
  · rw [kind] at rest
    obtain ⟨others, rfl⟩ := h.told
    have down := h.down
    rw [List.drop_left] at down
    cases others with
    | nil => exact (List.append_nil heard).symm
    | cons text more =>
        obtain ⟨rest', arrival⟩ := Link.arrival_of_carries .opener down
        rw [arrival] at rest
        exact nomatch rest
  · exact absurd gone live

/-- The server has answered all texts when it has nothing more to do. -/
theorem read_all (live : n.kind? c.acceptor c.guest ≠ none)
    (whole : ∀ stop, .error stop ∉ c.replies start seat (sends.map (·.1)))
    (rest : endStep? host n c.link .acceptor = none) :
    answers.map .ok = c.replies start seat (sends.map (·.1)) := by
  rw [h.texts] at whole ⊢
  have kind := h.attends.kind.resolve_right live
  rcases h.attends.session with serves | stops
  · have isOpen : (l.side .acceptor).isOpen = true := serves.isOpen
    rw [endStep?_server host .acceptor h.found h.accepts, if_pos isOpen, kind] at rest
    obtain ⟨n₀, ⟨_, s, _, x, _, there, _, idle, _⟩, replies⟩ := serves.mirrors
    cases waiting with
    | nil =>
        rw [replies]
        exact (List.append_nil _).symm
    | cons text more =>
        obtain ⟨rest', arrival⟩ := Link.arrival_of_carries .acceptor serves.arrived
        rw [arrival] at rest
        exact absurd rest (serveStep?_ne_none there idle)
  · rcases stops.reason with gone | ⟨stop, broken⟩
    · exact absurd gone live
    · refine absurd ((broken waiting).mem ?_) (whole stop)
      simp

theorem refines : c.Refines start seat sends n where
  heard := by
    rw [h.asks.heard]
    exact h.prefix_replies
  returned m ticket reply slot := by
    rw [h.asks.heard]
    exact h.returned_iff slot
  all live live' whole rest := by
    rw [h.asks.heard, h.heard_all live (rest .opener)]
    exact h.read_all live' whole (rest .acceptor)

end Standing

/-- Every connection of two servers has a history; and whatever else has happened since it was
opened, what is heard on it are the replies that the server would have given to the same texts in a
session by itself. -/
theorem conversations_local (unfolds : n.Unfolds) (joins : c.Joins n) :
    (∃ start sends, Converses c start sends n) ∧
      ∀ start sends, Converses c start sends n →
        (∀ s, start.servers[c.acceptor]? = some s → s.registry.IsNatural) →
        (∀ send ∈ sends, Script.Avoids IsReserved send.1) →
          ∀ seat, c.Refines start seat sends n := by
  refine ⟨unfolds.converses joins, fun start sends converses natural avoids seat => ?_⟩
  obtain ⟨_, _, _, _, _, standing⟩ := converses.standing natural avoids seat
  exact standing.refines

/-! ## Two texts on a connection -/

/-- Two servers, of which the first one can be reached. -/
def neighbours : Network :=
  (Network.start 0).after ((addServer .loopback .standard).after
    ((addServer .loopback .standard).after (.empty true)))

/-- The second one has connected with the first one. -/
def introduced : Network := (connect 1 "127.0.0.1" 47813).after neighbours

/-- The connection between the two. -/
def between : Connection := ⟨1, 1, 0, 0, 1⟩

/-- A text that binds a name has been sent on it. -/
def asked : Network := (send 1 1 "x = 1 x" true).after introduced

/-- Somebody else connects with the first server. -/
def joined (n : Network) : Network := (n.attach 0).elim n (·.1)

/-- One end of a link goes on, if it can. -/
def advanced (n : Network) (k : Nat) (side : Side) : Network :=
  (endStep? (hostWith (settleFor 0)) n k side).getD n

/-- Somebody else has sent a text that binds the same name.  It was answered first, and then the
text of the connection. -/
def intruded : Network :=
  let n := asked.joined.modifyLink 1
    (·.write .opener ((Wire.Frame.write (Text.Utf8.encode "x = 2 x")).toOption.getD []))
  ((n.advanced 1 .acceptor).advanced 0 .acceptor).advanced 0 .opener

/-- One more text was sent, which tells the name, and was answered as well. -/
def conversed : Network :=
  (((send 1 1 "x" false).after intruded).advanced 0 .acceptor).advanced 0 .opener

theorem Act.ok_of_run' {α : Type} {act : Act α} {a : α} (h : EStateM.run' act n = some a) :
    act n = .ok a (act.after n) := by
  unfold Act.after
  unfold EStateM.run' EStateM.run at h
  cases same : act n with
  | ok b n' =>
      rw [same] at h
      rw [Option.some.inj h]
  | error fault n' =>
      rw [same] at h
      exact nomatch h

theorem Unfolds.added (unfolds : n.Unfolds) :
    ((addServer .loopback .standard).after n).Unfolds := by
  unfold Act.after
  cases added : addServer .loopback .standard n with
  | ok i n' => exact unfolds.occurs (.addServer (by decide) added)
  | error fault n' =>
      unfold addServer at added
      split at added
      · exact nomatch added
      · cases added
        exact unfolds

theorem occur_advanced (n : Network) (k : Nat) (side : Side) :
    Relation.ReflTransGen Occurs n (n.advanced k side) := by
  unfold Network.advanced
  cases step : endStep? (hostWith (settleFor 0)) n k side with
  | none => exact .refl
  | some n' => exact .single (.step 0 step)

set_option maxRecDepth 20000 in
theorem underway_introduced : Underway between neighbours [] introduced := by
  have blank : (Network.empty true).Unfolds := ⟨.loopback, .refl⟩
  have happened : 1 < neighbours.servers.size ∧ neighbours.links.size = 0 ∧
      EStateM.run' (connect 1 "127.0.0.1" 47813) neighbours = some 1 ∧
      (introduced.links[0]?.map fun l => (l.opener.party, l.acceptor.party)) =
        some (.server 1 1, .server 0 1) := by
    decide +kernel
  obtain ⟨there, none, connected, parties⟩ := happened
  obtain ⟨l, found, held⟩ := Option.map_eq_some_iff.mp parties
  obtain ⟨opens, accepts⟩ := Prod.mk.inj held
  exact .opened (blank.added.added.occurs (.start 0)) there (Act.ok_of_run' connected) none.symm
    ⟨⟨l, found, opens⟩, ⟨l, found, accepts⟩⟩

theorem occur_joined (n : Network) : Relation.ReflTransGen Occurs n n.joined := by
  unfold Network.joined
  cases met : n.attach 0 with
  | none => exact .refl
  | some both => exact .single (.attach met)

set_option maxRecDepth 20000 in
theorem occur_intruded : Relation.ReflTransGen Occurs asked intruded := by
  have outside : (asked.joined.links[1]?.map fun l => l.opener.party) = some .outside := by
    decide +kernel
  obtain ⟨l, found, party⟩ := Option.map_eq_some_iff.mp outside
  have party : (l.side .opener).party = .outside := party
  have written := Relation.ReflTransGen.single (Occurs.outside found party
    (.write ((Wire.Frame.write (Text.Utf8.encode "x = 2 x")).toOption.getD [])))
  exact ((((occur_joined _).trans written).trans (occur_advanced _ 1 .acceptor)).trans
    (occur_advanced _ 0 .acceptor)).trans (occur_advanced _ 0 .opener)

set_option maxRecDepth 20000 in
theorem underway_conversed :
    Underway between neighbours [("x = 1 x", some 0), ("x", none)] conversed := by
  have happened : EStateM.run' (send 1 1 "x = 1 x" true) introduced = some 0 ∧
      intruded.nextTicket = asked.nextTicket ∧
      EStateM.run' (send 1 1 "x" false) intruded = some 1 ∧
      conversed.nextTicket = ((send 1 1 "x" false).after intruded).nextTicket := by
    decide +kernel
  obtain ⟨first, meanwhile, second, later⟩ := happened
  have answered := (underway_introduced.sent (Act.ok_of_run' first)).unsent occur_intruded meanwhile
  exact (answered.sent (Act.ok_of_run' second)).unsent
    ((occur_advanced _ 0 .acceptor).trans (occur_advanced _ 0 .opener)) later

/-- All servers have the standard registry. -/
def IsStandard (n : Network) : Prop :=
  ∀ (i : Nat) (s : Server), n.servers[i]? = some s → s.registry = .standard

theorem IsStandard.added (h : n.IsStandard) :
    ((addServer .loopback .standard).after n).IsStandard := by
  unfold Act.after addServer
  cases made : Server.new .loopback .standard n.servers.size with
  | error fault => exact h
  | ok server =>
      intro i s found
      have found : (n.servers.push server)[i]? = some s := found
      rw [Array.getElem?_push] at found
      split at found
      · cases found
        exact (Server.store_of_new made).2.1
      · exact h i s found

theorem IsStandard.started (h : n.IsStandard) (i : Nat) :
    ((Network.start i).after n).IsStandard := by
  unfold Act.after Network.start
  cases n.servers[i]? with
  | none => exact h
  | some s =>
      dsimp only
      cases n.surroundings.bind n.ports n.freePort s.settings.host s.settings.port with
      | error fault => exact h
      | ok port =>
          intro j t found
          obtain ⟨u, there, ⟨-, rfl⟩ | ⟨-, rfl⟩⟩ := server_of_modifyServer (n := n) found
          · exact h j t there
          · exact h j u there

/-- The replies that are heard on the connection tell the name as it was bound there. -/
theorem conversations_local_conversed : conversed.Unfolds ∧ between.Joins conversed ∧
    Converses between neighbours [("x = 1 x", some 0), ("x", none)] conversed ∧
    (∀ s, neighbours.servers[between.acceptor]? = some s → s.registry.IsNatural) ∧
    (∀ send ∈ [("x = 1 x", some 0), ("x", none)], Script.Avoids IsReserved send.1) ∧
    between.Refines neighbours .console [("x = 1 x", some 0), ("x", none)] conversed ∧
    (conversed.peer 1).heard 1 = ["1", "1 1"] := by
  have underway := underway_conversed
  have natural : ∀ s, neighbours.servers[between.acceptor]? = some s → s.registry.IsNatural := by
    intro s found
    have empty : (Network.empty true).IsStandard := fun i s found => nomatch found
    rw [(empty.added.added.started 0) _ s found]
    exact Registry.standard_isNatural
  have avoids : ∀ send ∈ [("x = 1 x", some 0), ("x", none)],
      Script.Avoids IsReserved send.1 := by
    simp only [List.forall_mem_cons]
    exact ⟨byTurns_avoids (.sends (.connection 1) "x = 1 x") (by simp [byTurns]),
      byTurns_avoids (.sends (.connection 2) "x") (by simp [byTurns]), List.forall_mem_nil _⟩
  refine ⟨underway.unfolds, underway.joins, underway.converses, natural, avoids, ?_, ?_⟩
  · exact (conversations_local underway.unfolds underway.joins).2 _ _ underway.converses
      natural avoids _
  · decide +kernel

end PeerScript.Network
