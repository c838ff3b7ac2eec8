import PeerScript.Proofs.Incidents.Quiet
import PeerScript.Proofs.Unbound.Histories

/-!
# Conversations have histories

A conversation goes on over a connection that one server has opened to another one, or to itself.
`Converses` tells which texts have been sent on a connection since it was opened, whatever else has
happened: each end of the link goes on when it likes, and in between anything may happen apart from
the connection.

Networks unfold by what those who use them do and by what each end of a link does, in any order:
`Unfolds`.  In a network that unfolds every connection of two servers has a history.
-/

set_option autoImplicit false

namespace PeerScript.Network

open Service (Server Seat)
open Peer (ConnectionId)
open Wire (Bytes Outcome Slot Ticket)

/-! ## Connections -/

/-- A connection of two servers: who has opened it and under which number, the link, and who has
accepted it and under which number. -/
structure Connection where
  opener : Nat
  id : ConnectionId
  link : Nat
  acceptor : Nat
  guest : ConnectionId

namespace Connection

variable {c : Connection} {n n' : Network} {links : Nat → Prop}

/-- The seat of the session that serves a connection. -/
def seat (c : Connection) : Seat := .connection c.guest

/-- Both servers hold their ends of the link. -/
structure Joins (c : Connection) (n : Network) : Prop where
  opens : n.HeldBy c.link .opener c.opener c.id
  accepts : n.HeldBy c.link .acceptor c.acceptor c.guest

/-- Something has happened apart from a connection, which may have been dropped. -/
structure Aside (c : Connection) (n n' : Network) : Prop where
  link : n'.links[c.link]? = n.links[c.link]?
  opener : n.Quiet c.opener c.id n'
  acceptor : n.Quiet c.acceptor c.guest n'
  session : n.Leaves (· = c.seat) c.acceptor n'

theorem Joins.behind (joins : c.Joins n) (keeps : n.Progress n') : c.Joins n' where
  opens := (keeps.held _ joins.opens.lt _ _ _).mpr joins.opens
  accepts := (keeps.held _ joins.accepts.lt _ _ _).mpr joins.accepts

theorem Joins.before (joins : c.Joins n') (keeps : n.Progress n')
    (old : c.link < n.links.size) : c.Joins n where
  opens := (keeps.held _ old _ _ _).mp joins.opens
  accepts := (keeps.held _ old _ _ _).mp joins.accepts

/-- What happens apart from the link of a connection happens apart from the connection, unless a
text is sent there. -/
theorem Joins.aside (joins : c.Joins n) (regular : n.IsRegular) (happens : Incident links n n')
    (mine : links c.link)
    (unsent : ∀ text waits ticket, send c.opener c.id text waits n ≠ .ok ticket n') :
    c.Aside n n' where
  link := regular.link_incident happens mine joins.opens joins.accepts unsent
  opener := regular.quiet_incident happens mine joins.opens unsent
  acceptor :=
    regular.quiet_incident happens mine joins.accepts (regular.send_accepted joins.accepts)
  session := regular.leaves_incident happens mine joins.accepts

/-- The link of a connection that was not there is the last one, which its opener has added. -/
theorem Joins.last {opener acceptor : Party} (joins : c.Joins (n.join opener acceptor))
    (new : ¬ c.link < n.links.size) :
    opener = .server c.opener c.id ∧ c.link = n.links.size := by
  rcases heldBy_join.mp joins.opens with held | ⟨last, party⟩
  · exact absurd held.lt new
  · exact ⟨party, last⟩

/-- A connection begins when one server connects. -/
theorem Joins.begins (joins : c.Joins n') (happens : Incident links n n')
    (new : ¬ c.link < n.links.size) : ∃ host port, c.opener < n.servers.size ∧
      connect c.opener host port n = .ok c.id n' ∧ c.link = n.links.size := by
  have more : n.links.size < n'.links.size :=
    Nat.lt_of_le_of_lt (Nat.le_of_not_lt new) joins.opens.lt
  have same : n'.links.size = n.links.size → False := fun same =>
    Nat.lt_irrefl _ (same ▸ more)
  cases happens with
  | server peer alone | note notes | take text held away | drop i id reason => exact absurd rfl same
  | link outside parties => exact absurd Array.size_modify same
  | send i id text waits =>
      refine absurd ?_ same
      unfold Act.after Network.send
      cases (n.peer i).remote id with
      | error fault => rfl
      | ok remote =>
          dsimp only
          cases n.write remote.link (Text.Utf8.encode text) with
          | error fault => rfl
          | ok frame => exact Array.size_modify
  | @connect i host port there =>
      unfold Act.after Network.connect at joins
      cases reached : n.reach host port with
      | error fault =>
          rw [reached] at joins
          exact absurd joins.opens.lt new
      | ok target =>
          rw [reached] at joins
          have still := ((n.modifyPeer i fun _ =>
            ((n.peer i).add (some ⟨n.links.size, .empty⟩)).1).accepts target).links
          dsimp only at joins
          have size := congrArg Array.size still
          obtain ⟨party, last⟩ := joins.last fun lt => new (Nat.lt_of_lt_of_eq lt size)
          obtain ⟨rfl, id⟩ := Party.server.inj party
          refine ⟨host, port, there, ?_, last.trans size⟩
          unfold Act.after Network.connect
          rw [reached, ← id]
  | @attach i k n' attached =>
      obtain rfl := attach_eq_some attached
      have still := (n.accepts (.server i)).links
      exact nomatch (joins.last (still ▸ new)).1
  | addServer added =>
      obtain ⟨server, -, rfl⟩ := addServer_eq_ok added
      exact absurd rfl same
  | around servers links outcomes tickets => exact absurd (congrArg Array.size links) same

end Connection

variable {n n' : Network} {c : Connection} {a : Account}

/-! ## Histories -/

/-- What has been sent on a connection since it was opened, each text with its slot.  The ends of
the link go on when they like, and meanwhile anything may happen apart from the connection. -/
inductive Converses (c : Connection) (start : Network) : List (String × Slot) → Network → Prop
  | opened {n : Network} {host : String} {port : Nat} : start.IsRegular →
      c.opener < start.servers.size → connect c.opener host port start = .ok c.id n →
      c.link = start.links.size → c.Joins n → Converses c start [] n
  | sent {n n' : Network} {sends : List (String × Slot)} {text : String} {waits : Bool}
      {ticket : Wire.Ticket} : Converses c start sends n →
      send c.opener c.id text waits n = .ok ticket n' →
      Converses c start (sends ++ [(text, if waits then some ticket else none)]) n'
  | step {n n' : Network} {sends : List (String × Slot)} {side : Side} (steps : Nat) :
      Converses c start sends n →
      endStep? (hostWith (settleFor steps)) n c.link side = some n' → n'.IsRegular →
      Converses c start sends n'
  | meanwhile {n n' : Network} {sends : List (String × Slot)} : Converses c start sends n →
      c.Aside n n' → n'.IsRegular → Converses c start sends n'

namespace Converses

variable {start : Network} {sends : List (String × Slot)}

/-- Whatever happens, a history goes on, and it grows by what is sent. -/
theorem incident (h : Converses c start sends n) (joins : c.Joins n) (regular : n.IsRegular)
    (happens : Incident (· = c.link) n n') : ∃ more, Converses c start (sends ++ more) n' ∧
      n.nextTicket + more.length ≤ n'.nextTicket := by
  by_cases sent : ∃ text waits ticket, send c.opener c.id text waits n = .ok ticket n'
  · obtain ⟨text, waits, ticket, sent⟩ := sent
    obtain ⟨r, frame, -, -, -, same⟩ := send_eq_ok sent
    exact ⟨_, h.sent sent, Nat.le_of_eq (same ▸ rfl)⟩
  · have aside := joins.aside regular happens rfl fun text waits ticket same =>
      sent ⟨text, waits, ticket, same⟩
    refine ⟨[], ?_, (Progress.incident happens).tickets⟩
    rw [List.append_nil]
    exact h.meanwhile aside (regular.incident happens)

end Converses

/-- Who holds another link does not hold this one. -/
theorem IsRegular.apart (h : n.IsRegular) {k k' i : Nat} {side : Side} {id : ConnectionId}
    (held : n.HeldBy k' side i id) (other : ¬ k' = k) :
    ¬ n.Holding (· = k) i (.connection id) := by
  rintro ⟨_, side', id', rfl, held', same⟩
  obtain rfl := Seat.connection.inj same
  exact other (h.single _ _ _ _ _ _ held held').1

/-- Every connection that holds the link has a history. -/
def Ledger.conversing (k : Nat) : Ledger where
  links := (· = k)
  frame := IsRegular
  record n := ∀ c : Connection, c.link = k → c.Joins n → ∃ start sends, Converses c start sends n
  frame_incident regular happens := regular.incident happens
  record_incident {n n'} regular record happens := by
    rintro c rfl joins
    by_cases old : c.link < n.links.size
    · have before := joins.before (.incident happens) old
      obtain ⟨start, sends, converses⟩ := record c rfl before
      obtain ⟨more, converses, -⟩ := converses.incident before regular happens
      exact ⟨start, sends ++ more, converses⟩
    · obtain ⟨host, port, there, connected, last⟩ := joins.begins happens old
      exact ⟨n, [], .opened regular there connected last joins⟩
  record_step {n n' steps k side} regular record mine step regular' keeps := by
    rintro c rfl joins
    obtain rfl : k = c.link := mine
    have old : c.link < n.links.size := by
      by_contra none
      rw [endStep?, Array.getElem?_eq_none (Nat.le_of_not_lt none)] at step
      exact nomatch step
    obtain ⟨start, sends, converses⟩ := record c rfl (joins.before keeps old)
    exact ⟨start, sends, converses.step steps step regular'⟩
  apart regular held other := regular.apart held other

/-- A connection has a history that begins as given, and each text that was sent since has had a
number of its own. -/
def Ledger.continuing (c : Connection) (start : Network) (sends : List (String × Slot))
    (next : Nat) : Ledger where
  links := (· = c.link)
  frame := IsRegular
  record n := c.Joins n ∧ ∃ more, Converses c start (sends ++ more) n ∧
    next + more.length ≤ n.nextTicket
  frame_incident regular happens := regular.incident happens
  record_incident {n n'} regular record happens := by
    obtain ⟨joins, more, converses, counted⟩ := record
    obtain ⟨others, converses, later⟩ := converses.incident joins regular happens
    refine ⟨joins.behind (.incident happens), more ++ others, ?_, ?_⟩
    · rw [← List.append_assoc]
      exact converses
    · rw [List.length_append, ← Nat.add_assoc]
      exact Nat.le_trans (Nat.add_le_add_right counted _) later
  record_step {n n' steps k side} regular record mine step regular' keeps := by
    obtain rfl : k = c.link := mine
    obtain ⟨joins, more, converses, counted⟩ := record
    exact ⟨joins.behind keeps, more, converses.step steps step regular',
      Nat.le_trans counted keeps.tickets⟩
  apart regular held other := regular.apart held other

/-! ## Networks that unfold -/

/-- What somebody does with his end of a link: he writes, reads, or closes it. -/
inductive Uses (side : Side) : (Link → Link) → Prop
  | write (bytes : Bytes) : Uses side (·.write side bytes)
  | leave (rest : Bytes) : Uses side (·.leave side rest)
  | close : Uses side (·.close side)

theorem Uses.party {side : Side} {change : Link → Link} (uses : Uses side change) (l : Link)
    (other : Side) : ((change l).side other).party = (l.side other).party := by
  cases uses with
  | write bytes => exact party_write side bytes l other
  | leave rest => exact party_leave side rest l other
  | close => exact party_close side l other

/-- One of the things that happen in a network: servers are added, started and stopped, and give
themselves a console, at which lines are typed; they connect with each other, with remotes, and with
somebody outside; connections are entered, left and closed; texts are sent; those outside use their
ends of links; the surroundings change; and the holder of one end of a link goes on. -/
inductive Occurs (n : Network) : Network → Prop
  | surround (surroundings : Surroundings) : Occurs n { n with surroundings }
  /-- A port is a number of 16 bits. -/
  | addServer {n' : Network} {settings : Settings} {registry : Registry} {i : Nat} :
      settings.bootstrap.port < 65536 → addServer settings registry n = .ok i n' → Occurs n n'
  | start (i : Nat) : Occurs n ((start i).after n)
  | stop (i : Nat) : Occurs n (n.modifyServer i Server.stop)
  | console (i : Nat) : Occurs n (n.modifyServer i (·.seated .console))
  | line (steps i : Nat) (line : String) :
      Occurs n (n.running i .console (answerLine (hostWith (settleFor steps)) line)).1
  | addRemote (replies : List Bytes) : Occurs n (n.addRemote replies).1
  | attach {n' : Network} {i k : Nat} : n.attach i = some (n', k) → Occurs n n'
  | connect {i : Nat} (host : String) (port : Nat) : i < n.servers.size →
      Occurs n ((connect i host port).after n)
  | enter (i : Nat) (id : Option ConnectionId) : Occurs n ((enter i id).after n)
  | leave (i : Nat) : Occurs n ((leave i).after n)
  | close (i : Nat) (id : ConnectionId) : Occurs n (n.close i id).1
  | closeAll (i : Nat) : Occurs n (n.closeAll i)
  | send (i : Nat) (id : Option ConnectionId) (text : String) (waits : Bool) :
      Occurs n ((sending i id text waits).after n)
  | outside {k : Nat} {l : Link} {side : Side} {change : Link → Link} : n.links[k]? = some l →
      (l.side side).party = .outside → Uses side change → Occurs n (n.modifyLink k change)
  | step {n' : Network} {k : Nat} {side : Side} (steps : Nat) :
      endStep? (hostWith (settleFor steps)) n k side = some n' → Occurs n n'

/-- A network that has come about from one without any server. -/
def Unfolds (n : Network) : Prop :=
  ∃ surroundings, Relation.ReflTransGen Occurs (.amid surroundings) n

theorem Settled.occurs (settled : n.Settled a) (free : ∀ i, a.IsFree i) (occurs : n.Occurs n') :
    n'.Settled a := by
  cases occurs with
  | surround surroundings => exact settled.around rfl rfl rfl rfl
  | addServer small added => exact settled.addServer small added
  | start i => exact (Act.Settles.start i).after settled
  | stop i => exact settled.stop i
  | console i => exact settled.console (free i)
  | line steps i line =>
      exact settled.runs_line (settled_settleFor steps a) (proceeds_settleFor steps) (free i) line
  | addRemote replies => exact settled.around rfl rfl rfl rfl
  | attach attached => exact settled.attach attached
  | connect host port there =>
      exact (settled.connect (settled.holds.incident (.connect host port there))).after
  | enter i id => exact (Act.Settles.enter i id).after settled
  | leave i => exact (Act.Settles.leave i).after settled
  | close i id => exact settled.drop id _
  | closeAll i => exact settled.closeAll i
  | send i id text waits => exact (Act.Settles.sending i id text waits).after settled
  | @outside k l side change found party uses =>
      exact settled.modifyLink k change (settled.holds.incident
        (.link (fun _ => ⟨l, side, found, party⟩) fun l' other i id _ => by rw [uses.party]))
  | @step n' k side steps step => exact settled.endStep (settled_settleFor steps) k side step

theorem Unfolds.settled (unfolds : n.Unfolds) (free : ∀ i, a.IsFree i)
    (blank : ∀ surroundings, (Network.amid surroundings).Settled a) : n.Settled a := by
  obtain ⟨surroundings, occurs⟩ := unfolds
  induction occurs with
  | refl => exact blank surroundings
  | tail _ occurs ih => exact ih.occurs free occurs

/-- In a network that unfolds every connection of two servers has a history. -/
theorem Unfolds.conversing (unfolds : n.Unfolds) (k : Nat) :
    n.Settled (Account.silent.withLedger (.conversing k)) := by
  refine unfolds.settled (fun _ => ⟨id, fun _ => trivial⟩) fun surroundings => ?_
  exact (Settled.amid (a := .silent) surroundings).withLedger
    ⟨isRegular_amid surroundings, fun _ _ joins => nomatch joins.opens.lt⟩

theorem Unfolds.converses (unfolds : n.Unfolds) (joins : c.Joins n) :
    ∃ start sends, Converses c start sends n :=
  (unfolds.conversing c.link).holds.record c rfl joins

theorem Unfolds.regular (unfolds : n.Unfolds) : n.IsRegular :=
  (unfolds.conversing 0).holds.frame

theorem Unfolds.occurs (unfolds : n.Unfolds) (occurs : n.Occurs n') : n'.Unfolds := by
  obtain ⟨surroundings, before⟩ := unfolds
  exact ⟨surroundings, before.tail occurs⟩

/-- A connection has a history in a network that unfolds. -/
structure Underway (c : Connection) (start : Network) (sends : List (String × Slot)) (n : Network) :
    Prop where
  unfolds : n.Unfolds
  joins : c.Joins n
  converses : Converses c start sends n

namespace Underway

variable {start : Network} {sends : List (String × Slot)}

theorem opened {host : String} {port : Nat} (unfolds : start.Unfolds)
    (there : c.opener < start.servers.size)
    (connected : connect c.opener host port start = .ok c.id n) (last : c.link = start.links.size)
    (joins : c.Joins n) : Underway c start [] n where
  unfolds := by
    have occurs : start.Occurs ((connect c.opener host port).after start) :=
      .connect host port there
    rw [Act.after, connected] at occurs
    exact unfolds.occurs occurs
  joins := joins
  converses := .opened unfolds.regular there connected last joins

variable (h : Underway c start sends n)

include h

theorem sent {text : String} {waits : Bool} {ticket : Ticket}
    (sent : send c.opener c.id text waits n = .ok ticket n') :
    Underway c start (sends ++ [(text, if waits then some ticket else none)]) n' where
  unfolds := by
    have occurs : n.Occurs ((send c.opener c.id text waits).after n) :=
      .send c.opener (some c.id) text waits
    rw [Act.after, sent] at occurs
    exact h.unfolds.occurs occurs
  joins := by
    have happens : Incident (fun _ => False) n ((send c.opener c.id text waits).after n) :=
      .send c.opener c.id text waits
    rw [Act.after, sent] at happens
    exact h.joins.behind (.incident happens)
  converses := h.converses.sent sent

/-- Whatever occurs next, the history goes on, and it grows by what is sent. -/
theorem occurs (occurs : n.Occurs n') : ∃ more, Underway c start (sends ++ more) n' ∧
    n.nextTicket + more.length ≤ n'.nextTicket := by
  have record : ∃ more, Converses c start (sends ++ more) n ∧
      n.nextTicket + more.length ≤ n.nextTicket :=
    ⟨[], (List.append_nil sends).symm ▸ h.converses, Nat.le_refl _⟩
  have settled : n.Settled
      (Account.silent.withLedger (.continuing c start sends n.nextTicket)) :=
    (h.unfolds.conversing c.link).withLedger ⟨h.unfolds.regular, h.joins, record⟩
  obtain ⟨joins, more, converses, counted⟩ :=
    (settled.occurs (fun _ => ⟨id, fun _ => trivial⟩) occurs).holds.record
  exact ⟨more, ⟨h.unfolds.occurs occurs, joins, converses⟩, counted⟩

/-- Whatever occurs from then on, the history goes on. -/
theorem lasts (occur : Relation.ReflTransGen Occurs n n') : ∃ more,
    Underway c start (sends ++ more) n' ∧ n.nextTicket + more.length ≤ n'.nextTicket := by
  induction occur with
  | refl => exact ⟨[], (List.append_nil sends).symm ▸ h, Nat.le_refl _⟩
  | tail _ occurs ih =>
      obtain ⟨more, underway, counted⟩ := ih
      obtain ⟨others, underway, later⟩ := underway.occurs occurs
      refine ⟨more ++ others, ?_, ?_⟩
      · rw [← List.append_assoc]
        exact underway
      · rw [List.length_append, ← Nat.add_assoc]
        exact Nat.le_trans (Nat.add_le_add_right counted _) later

/-- While no request gets a number, nothing is sent. -/
theorem unsent (occur : Relation.ReflTransGen Occurs n n') (same : n'.nextTicket = n.nextTicket) :
    Underway c start sends n' := by
  obtain ⟨more, underway, counted⟩ := h.lasts occur
  rw [same] at counted
  have none : more = [] := List.eq_nil_of_length_eq_zero
    (Nat.le_zero.mp (Nat.le_of_add_le_add_left counted))
  rw [none, List.append_nil] at underway
  exact underway

end Underway

end PeerScript.Network
