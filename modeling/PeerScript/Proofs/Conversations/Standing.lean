import PeerScript.Proofs.Conversations.Ends

/-!
# The state of a conversation

The texts that are on their way to the server that accepts a connection are those that it has not
read, and the texts that are on their way back are the answers that were not heard.  Each step of
either end keeps this, and so does every text that is sent, and whatever happens apart from the
connection.
-/

set_option autoImplicit false

namespace PeerScript.Network

open Service (Server Seat IsReserved)
open Peer (ConnectionId)
open Wire (Bytes Slot Ticket)

variable {n n' : Network} {c : Connection} {start : Network} {seat : Seat} {k : Nat} {side : Side}
  {sends : List (String × Slot)} {l l' : Link} {heard answers read waiting : List String}

/-! ## Links -/

theorem links_modifyLink (found : n.links[k]? = some l) (change : Link → Link) :
    (n.modifyLink k change).links[k]? = some (change l) := by
  simp [modifyLink, Array.getElem?_modify, found]

theorem Link.read_of_arrival {bytes rest : Bytes} (arrival : l.arrival side = .message bytes rest) :
    Wire.Frame.read (l.side side).arrived = .ok (bytes, rest) := by
  unfold Link.arrival at arrival
  split at arrival
  · rename_i found
    cases arrival
    exact found
  · split at arrival <;> exact nomatch arrival

/-- What arrives is the oldest of the texts that are on their way. -/
theorem Link.text_of_arrival {bytes rest : Bytes} {texts : List String}
    (arrival : l.arrival side = .message bytes rest)
    (carries : Wire.Carries (l.side side).arrived texts) :
    ∃ more, texts = textOf bytes :: more ∧ Wire.Carries rest more := by
  have read := Link.read_of_arrival arrival
  cases texts with
  | nil => exact nomatch carries.read_nil.symm.trans read
  | cons text more =>
      obtain ⟨rest', same, carries⟩ := carries.read
      cases same.symm.trans read
      exact ⟨more, by rw [textOf_encode], carries⟩

theorem Link.arrival_of_carries (side : Side) {text : String} {more : List String}
    (carries : Wire.Carries (l.side side).arrived (text :: more)) :
    ∃ rest, l.arrival side = .message (Text.Utf8.encode text) rest := by
  obtain ⟨rest, read, -⟩ := carries.read
  exact ⟨rest, by rw [Link.arrival, read]⟩

/-- What the server that holds an end does there. -/
theorem endStep?_server (host : Host Network) (side : Side) {i : Nat} {id : ConnectionId}
    (found : n.links[k]? = some l) (party : (l.side side).party = .server i id) :
    endStep? host n k side = if (l.side side).isOpen then
      match n.kind? i id with
      | none => some ((n.modifyServer i (·.vacated (.connection id))).modifyLink k (·.close side))
      | some (some _) => n.readStep? k side i id (l.arrival side)
      | some none => serveStep? host n k side i id (l.arrival side)
      else none := by
  unfold endStep? kind? Peer.Table.kind?
  rw [found]
  dsimp only
  rw [party]
  dsimp only
  rcases (n.peer i).find? id with _ | ⟨_, _ | _⟩ <;> rfl

/-- A server whose session is idle answers what has arrived. -/
theorem serveStep?_ne_none {host : Host Network} {i : Nat} {id : ConnectionId} {bytes rest : Bytes}
    {s : Server} {session : Session} (there : n.servers[i]? = some s)
    (idle : s.idle.lookup (.connection id) = some session) :
    serveStep? host n k side i id (.message bytes rest) ≠ none := by
  unfold serveStep?
  rw [there, Option.map_some, Option.getD_some, idle, if_neg nofun]
  dsimp only
  split
  · exact nofun
  · exact nofun
  · split <;> exact nofun

/-! ## Standing -/

/-- The state of a conversation: what each end has done, and what is on its way between them. -/
structure Standing (c : Connection) (start : Network) (seat : Seat) (sends : List (String × Slot))
    (read waiting answers heard : List String) (l : Link) (n : Network) : Prop where
  regular : n.IsRegular
  found : n.links[c.link]? = some l
  opens : l.opener.party = .server c.opener c.id
  accepts : l.acceptor.party = .server c.acceptor c.guest
  texts : sends.map (·.1) = read ++ waiting
  asks : c.Asks (sends.map (·.2)) heard n
  told : heard <+: answers
  down : Wire.Carries l.opener.arrived (answers.drop heard.length)
  opened : n.kind? c.opener c.id ≠ none → l.opener.isOpen = true
  attends : c.Attends start seat read waiting answers l.acceptor n

namespace Standing

variable (h : Standing c start seat sends read waiting answers heard l n)

include h

theorem joins : c.Joins n := ⟨⟨l, h.found, h.opens⟩, ⟨l, h.found, h.accepts⟩⟩

/-- The two ends belong to different connections. -/
theorem apart : ¬ (c.acceptor = c.opener ∧ c.guest = c.id) := by
  rintro ⟨same, same'⟩
  have opens := h.joins.opens
  rw [← same, ← same'] at opens
  exact nomatch (h.regular.single _ _ _ _ _ _ opens h.joins.accepts).2

/-- The session of the connection is not the one of the connection at the other end. -/
theorem leaves_vacated :
    n.Leaves (· = c.seat) c.acceptor (n.modifyServer c.opener (·.vacated (.connection c.id))) := by
  refine leaves_modifyServer fun s _ same => ?_
  refine ⟨rfl, rfl, rfl, .refl _, rfl, Nat.le_refl _, fun seat mine => ?_, fun _ _ _ _ => .refl _ _⟩
  refine (Association.lookup_erase ..).trans (if_neg ?_)
  rintro rfl
  exact h.apart ⟨same, (Seat.connection.inj mine).symm⟩

/-- The end that was opened is still open unless the connection has gone. -/
theorem opened_of_quiet (opener : n.Quiet c.opener c.id n')
    (live : n'.kind? c.opener c.id ≠ none) : l.opener.isOpen = true := by
  rcases opener.kind with before | ⟨gone, -⟩
  · exact h.opened (before ▸ live)
  · exact absurd gone live

/-- Nothing happens on the connection, but its opener may close the link when it has gone. -/
theorem moved (regular : n'.IsRegular) (opener : n.Quiet c.opener c.id n')
    (kind : n'.kind? c.acceptor c.guest = n.kind? c.acceptor c.guest ∨
      n'.kind? c.acceptor c.guest = none)
    (session : n.Leaves (· = c.seat) c.acceptor n') (found : n'.links[c.link]? = some l')
    (acceptor : l'.acceptor = l.acceptor) (party : l'.opener.party = l.opener.party)
    (arrived : l'.opener.arrived = l.opener.arrived)
    (isOpen : n'.kind? c.opener c.id ≠ none → l'.opener.isOpen = l.opener.isOpen) :
    Standing c start seat sends read waiting answers heard l' n' where
  regular := regular
  found := found
  opens := party.trans h.opens
  accepts := acceptor ▸ h.accepts
  texts := h.texts
  asks := h.asks.quiet h.regular opener
  told := h.told
  down := arrived ▸ h.down
  opened live := (isOpen live).trans (h.opened_of_quiet opener live)
  attends := acceptor ▸ h.attends.leaves session kind

/-- The acceptor has done something. -/
theorem attended {read' waiting' : List String} (regular : n'.IsRegular)
    (opener : n.Quiet c.opener c.id n') (found : n'.links[c.link]? = some l')
    (same : l'.opener = l.opener) (party : l'.acceptor.party = l.acceptor.party)
    (texts : read' ++ waiting' = read ++ waiting)
    (attends : c.Attends start seat read' waiting' answers l'.acceptor n') :
    Standing c start seat sends read' waiting' answers heard l' n' where
  regular := regular
  found := found
  opens := same ▸ h.opens
  accepts := party.trans h.accepts
  texts := h.texts.trans texts.symm
  asks := h.asks.quiet h.regular opener
  told := h.told
  down := same ▸ h.down
  opened live := same ▸ h.opened_of_quiet opener live
  attends := attends

/-- Something happens apart from the connection. -/
theorem aside (regular : n'.IsRegular) (aside : c.Aside n n') :
    Standing c start seat sends read waiting answers heard l n' := by
  refine h.moved regular aside.opener ?_ aside.session (aside.link.trans h.found) rfl rfl rfl
    fun _ => rfl
  exact aside.acceptor.kind.imp_right (·.1)

/-- One more text is sent. -/
theorem sent {text : String} {waits : Bool} {ticket : Ticket}
    (sent : send c.opener c.id text waits n = .ok ticket n') : ∃ l',
    Standing c start seat (sends ++ [(text, if waits then some ticket else none)]) read
      (waiting ++ [text]) answers heard l' n' := by
  have regular := h.regular.send c.opener c.id text waits
  have after : (send c.opener c.id text waits).after n = n' := by rw [Act.after, sent]
  rw [after] at regular
  obtain ⟨r, frame, live, written, rfl, same⟩ := send_eq_ok sent
  have mine : r.link = c.link := by
    rcases h.regular.remote _ _ r live with opens | ⟨-, outside⟩
    · exact (h.regular.single _ _ _ _ _ _ opens h.joins.opens).1
    · cases outside
  rw [mine] at written same
  have framed := (write_eq_ok written).1
  have notes : ∀ a, ((n.queue c.opener c.id waits).peer a).Notes (n'.peer a) := fun a => by
    rw [same]
    exact (Notes.modifyPeer _ c.opener (·.notes_noteSent c.id text)).tables a
  have kinds : ∀ a x, n'.kind? a x = (n.queue c.opener c.id waits).kind? a x := fun a x =>
    (notes a).kind? x
  have session : n.Leaves (· = c.seat) c.acceptor n' := by
    rw [same]
    exact (leaves_modifyPeer
      (·.pushSlot c.id (if waits then some n.nextTicket else none)) rfl).trans
      (leaves_modifyPeer (·.noteSent c.id text) rfl)
  have found : n'.links[c.link]? = some (l.write .opener frame) := by
    rw [same]
    exact links_modifyLink h.found _
  refine ⟨l.write .opener frame, regular, found, h.opens, h.accepts, ?_, ?_, h.told, h.down,
    fun _ => h.opened (Option.ne_none_iff_exists'.mpr ⟨_, live⟩), ?_⟩
  · rw [List.map_append, h.texts, List.append_assoc]
    rfl
  · rw [List.map_append]
    refine h.asks.sent live (((notes _).heard _).trans (heard_queue waits)) ?_ (same ▸ rfl)
    rw [kinds, kind?_queue, if_pos ⟨rfl, rfl⟩, live]
    rfl
  · have kind := kinds c.acceptor c.guest
    rw [kind?_queue, if_neg h.apart] at kind
    exact (h.attends.leaves session (.inl kind)).arrived rfl (·.snoc framed)

/-! ### The end that was opened -/

/-- Who has opened the connection finds that it has gone, and closes its end. -/
theorem closed (regular : n'.IsRegular) (opener : n.Quiet c.opener c.id n')
    (gone : n'.kind? c.opener c.id = none)
    (kind : n'.kind? c.acceptor c.guest = n.kind? c.acceptor c.guest)
    (session : n.Leaves (· = c.seat) c.acceptor n')
    (found : n'.links[c.link]? = some (l.close .opener)) :
    Standing c start seat sends read waiting answers heard (l.close .opener) n' :=
  h.moved regular opener (.inl kind) session found rfl rfl rfl fun live => absurd gone live

/-- Who has opened the connection takes a reply: it is the answer to the oldest text that was not
answered yet. -/
theorem taken {r : Peer.Remote} {bytes rest : Bytes}
    (live : n.kind? c.opener c.id = some (some r))
    (arrival : l.arrival .opener = .message bytes rest)
    (regular : ((n.take c.opener c.id (textOf bytes)).modifyLink c.link
      (·.leave .opener rest)).IsRegular) :
    Standing c start seat sends read waiting answers (heard ++ [textOf bytes])
      (l.leave .opener rest) ((n.take c.opener c.id (textOf bytes)).modifyLink c.link
        (·.leave .opener rest)) := by
  obtain ⟨more, left, carries⟩ := Link.text_of_arrival arrival h.down
  obtain ⟨others, rfl⟩ := h.told
  rw [List.drop_left] at left
  subst left
  have fewer : heard.length < (sends.map (·.2)).length := by
    have answered := h.attends.fewer
    have texts := congrArg List.length h.texts
    simp only [List.length_map, List.length_append, List.length_cons] at answered texts ⊢
    omega
  have held := h.joins.opens
  have asks : c.Asks (sends.map (·.2)) (heard ++ [textOf bytes])
      ((n.take c.opener c.id (textOf bytes)).modifyLink c.link (·.leave .opener rest)) :=
    (h.asks.taken h.regular (textOf bytes) live fewer).quiet (h.regular.take held _)
      (.of_peer rfl rfl)
  have kind : (n.take c.opener c.id (textOf bytes)).kind? c.acceptor c.guest = _ :=
    n.kind?_take (textOf bytes) c.acceptor c.guest
  rw [if_neg h.apart] at kind
  have session : n.Leaves (· = c.seat) c.acceptor (n.take c.opener c.id (textOf bytes)) :=
    leaves_modifyPeer (fun _ => ((n.peer c.opener).respond c.id (textOf bytes)).1) rfl
  refine ⟨regular, links_modifyLink h.found _, h.opens, h.accepts, h.texts, asks, ?_, ?_,
    fun _ => h.opened (Option.ne_none_iff_exists'.mpr ⟨_, live⟩),
    h.attends.leaves session (.inl kind)⟩
  · rw [List.append_cons heard (textOf bytes) more]
    exact List.prefix_append _ _
  · rw [List.append_cons heard (textOf bytes) more, List.drop_left]
    exact carries

/-- A step of the end that was opened. -/
theorem opener_step {host : Host Network} (step : endStep? host n c.link .opener = some n')
    (regular : n'.IsRegular) : ∃ heard' l',
    Standing c start seat sends read waiting answers heard' l' n' := by
  rw [endStep?_server host .opener h.found h.opens] at step
  split at step
  · cases kind : n.kind? c.opener c.id with
    | none =>
        rw [kind] at step
        cases step
        have vacated : ∀ a, (n.modifyServer c.opener (·.vacated (.connection c.id))).peer a =
            n.peer a := fun a => peer_vacated _ _
        refine ⟨heard, _, h.closed regular (.of_peer (vacated _) rfl) ?_ ?_ h.leaves_vacated
          (links_modifyLink h.found _)⟩
        · exact (congrArg (·.kind? c.id) (vacated _)).trans kind
        · exact congrArg (·.kind? c.guest) (vacated _)
    | some remote =>
        obtain _ | r := remote
        · rcases h.asks.waiting with ⟨r, live, -⟩ | ⟨gone, -⟩
          · exact nomatch kind.symm.trans live
          · exact nomatch kind.symm.trans gone
        · rw [kind] at step
          dsimp only [readStep?] at step
          cases arrival : l.arrival .opener with
          | pending => exact nomatch arrival ▸ step
          | ended fault =>
              rw [arrival] at step
              cases step
              have dropped : ∀ a x,
                  (n.drop c.opener c.id Wire.connectionLost).1.kind? a x = _ :=
                fun a x => n.kind?_drop Wire.connectionLost a x
              refine ⟨heard, _, h.closed regular ?_ ?_ ?_ ?_ (links_modifyLink h.found _)⟩
              · exact (n.quiet_drop c.opener c.id Wire.connectionLost).and_peer rfl rfl
              · exact (dropped c.opener c.id).trans (if_pos ⟨rfl, rfl⟩)
              · exact (dropped c.acceptor c.guest).trans (if_neg h.apart)
              · exact leaves_drop c.opener c.id Wire.connectionLost
          | message bytes rest =>
              rw [arrival] at step
              cases step
              exact ⟨_, _, h.taken kind arrival regular⟩
  · exact nomatch step

/-! ### The end that was accepted -/

/-- The connection is taken away with its session. -/
theorem hungUp {m : Network} {reason : String} (notes : n.Notes m) {s : Server}
    (there : m.servers[c.acceptor]? = some s) (found : m.links[c.link]? = some l')
    (same : l'.opener = l.opener) (party : l'.acceptor.party = l.acceptor.party)
    (regular : (m.hangUp c.link .acceptor c.acceptor c.guest reason).IsRegular) :
    Standing c start seat sends read waiting answers heard (l'.close .acceptor)
      (m.hangUp c.link .acceptor c.acceptor c.guest reason) := by
  have quiet :=
    m.quiet_hangUp (a := c.opener) (x := c.id) c.link .acceptor c.acceptor c.guest reason
  refine h.attended regular (quiet.behind_notes notes) (links_modifyLink found _) same party rfl ?_
  refine h.attends.gone (vacant_hangUp there _ _ _) ?_
  have gone : (m.drop c.acceptor c.guest reason).1.kind? c.acceptor c.guest = _ :=
    m.kind?_drop reason c.acceptor c.guest
  rw [if_pos ⟨rfl, rfl⟩] at gone
  exact (congrArg (·.kind? c.guest) (m.peer_hangUp _ _ _)).trans gone

/-- The text that is read breaks the session, which is taken away. -/
theorem stopped {m : Network} {text : String} {more : List String} {stop : Stop} {s : Server}
    (texts : waiting = text :: more) (notes : n.Notes m) (there : m.servers[c.acceptor]? = some s)
    (told : ∀ more, answers.map .ok ++ [.error stop] <+:
      c.replies start seat (read ++ [text] ++ more))
    (servers : n'.servers = (m.modifyServer c.acceptor (·.vacated c.seat)).servers)
    (outcomes : n'.outcomes = m.outcomes) (regular : n'.IsRegular)
    (found : n'.links[c.link]? = some l') (same : l'.opener = l.opener)
    (party : l'.acceptor.party = l.acceptor.party) :
    Standing c start seat sends (read ++ [text]) more answers heard l' n' := by
  have peer : ∀ a, n'.peer a = m.peer a := fun a => by
    rw [peer, servers]
    exact peer_vacated _ _
  have notes' : n.Notes n' :=
    ⟨fun a => (peer a).symm ▸ notes.tables a, outcomes.trans notes.outcomes⟩
  refine h.attended regular (.of_notes notes') found same party ?_ ?_
  · rw [texts, List.append_cons read text more]
  · refine ⟨notes'.kind? _ _ ▸ h.attends.kind, .inr ⟨?_, ?_, fun more => ?_, .inr ⟨stop, told⟩⟩⟩
    · rw [servers]
      exact vacant_vacated there c.seat
    · rw [List.length_append]
      exact Nat.le_add_right_of_le h.attends.fewer
    · exact (List.prefix_append _ _).trans (told more)

/-- The answer to the text that is read is written behind the others. -/
theorem replied {text reply : String} {frame rest : Bytes} {more : List String}
    (texts : waiting = text :: more)
    (framed : Wire.Frame.write (Text.Utf8.encode reply) = .ok frame)
    (opener : n.Quiet c.opener c.id n')
    (kind : n'.kind? c.acceptor c.guest = n.kind? c.acceptor c.guest) (regular : n'.IsRegular)
    (found : n'.links[c.link]? = some ((l.leave .acceptor rest).write .acceptor frame))
    (serves : c.Serves start seat (read ++ [text]) more (answers ++ [reply])
      (l.leave .acceptor rest).acceptor n') :
    Standing c start seat sends (read ++ [text]) more (answers ++ [reply]) heard
      ((l.leave .acceptor rest).write .acceptor frame) n' where
  regular := regular
  found := found
  opens := h.opens
  accepts := h.accepts
  texts := by rw [h.texts, texts, List.append_cons read text more]
  asks := h.asks.quiet h.regular opener
  told := h.told.trans (List.prefix_append _ _)
  down := by
    rw [List.drop_append_of_le_length h.told.length_le]
    exact h.down.snoc framed
  opened live := h.opened_of_quiet opener live
  attends := ⟨kind ▸ h.attends.kind, .inl serves⟩

/-- Who has accepted the connection reads a text and answers it, unless it breaks the session or the
answer cannot be written. -/
theorem received {host : Host Network} {bytes rest : Bytes}
    (avoids : ∀ send ∈ sends, Script.Avoids IsReserved send.1)
    (serves : c.Serves start seat read waiting answers l.acceptor n)
    (arrival : l.arrival .acceptor = .message bytes rest)
    (step : serveStep? host n c.link .acceptor c.acceptor c.guest (.message bytes rest) = some n')
    (regular : n'.IsRegular) : ∃ read' waiting' answers' l',
      Standing c start seat sends read' waiting' answers' heard l' n' := by
  obtain ⟨more, rfl, carries⟩ := Link.text_of_arrival arrival serves.arrived
  have mem : textOf bytes ∈ sends.map (·.1) := by simp [h.texts]
  obtain ⟨send, sent, same⟩ := List.mem_map.mp mem
  have left : c.Serves start seat read (textOf bytes :: more) answers l.acceptor
      (n.modifyLink c.link (·.leave .acceptor rest)) := serves.leaves (.of_servers rfl)
  obtain ⟨m, n₁, answer, received, notes, links, mirrors, replies⟩ :=
    left.receive host (write (n.modifyLink c.link (·.leave .acceptor rest)) c.link)
      (same ▸ avoids send sent)
  have notes : n.Notes m := ⟨notes.tables, notes.outcomes⟩
  have found : m.links[c.link]? = some (l.leave .acceptor rest) := by
    rw [links]
    exact links_modifyLink h.found _
  obtain ⟨_, s, _, _, _, there, _⟩ := mirrors.sessions
  unfold serveStep? at step
  split at step
  · exact nomatch step
  · dsimp only at step
    rw [received] at step
    cases answer with
    | error stop =>
        have told : ∀ more, answers.map .ok ++ [.error stop] <+:
            c.replies start seat (read ++ [textOf bytes] ++ more) := fun more => by
          rw [replies]
          exact (List.prefix_append_right_inj _).mpr ⟨_, rfl⟩
        have closes := links_modifyLink (n := m.modifyServer c.acceptor (·.vacated c.seat)) found
          (·.close .acceptor)
        cases stop with
        | unfinished =>
            cases step
            exact ⟨_, _, _, _, h.stopped rfl notes there told rfl rfl regular found rfl rfl⟩
        | failed fault =>
            cases step
            exact ⟨_, _, _, _, h.stopped rfl notes there told rfl rfl regular closes rfl rfl⟩
        | broken =>
            cases step
            exact ⟨_, _, _, _, h.stopped rfl notes there told rfl rfl regular closes rfl rfl⟩
    | ok reply =>
        dsimp only [Except.map] at step
        cases written : write (n.modifyLink c.link (·.leave .acceptor rest)) c.link
            (Text.Utf8.encode reply) with
        | error fault =>
            rw [written] at step
            cases step
            exact ⟨_, _, _, _, h.hungUp notes there found rfl rfl regular⟩
        | ok frame =>
            rw [written] at step
            cases step
            have framed := (write_eq_ok written).1
            have quiet : n.Quiet c.opener c.id (m.modifyLink c.link (·.write .acceptor frame)) :=
              .of_notes ⟨notes.tables, notes.outcomes⟩
            refine ⟨_, _, _, _, h.replied rfl framed quiet (notes.kind? _ _) regular
              (links_modifyLink found _) ⟨serves.isOpen, carries, ?_, n₁, ?_, fun more => ?_⟩⟩
            · rw [List.length_append, List.length_append, serves.as_many]
              rfl
            · exact mirrors.leaves (.of_servers rfl)
            · rw [replies, List.map_append, List.append_assoc]
              rfl

/-- A step of the end that was accepted. -/
theorem acceptor_step {host : Host Network}
    (avoids : ∀ send ∈ sends, Script.Avoids IsReserved send.1)
    (step : endStep? host n c.link .acceptor = some n') (regular : n'.IsRegular) :
    ∃ read' waiting' answers' l',
      Standing c start seat sends read' waiting' answers' heard l' n' := by
  obtain ⟨s, there⟩ := h.attends.found
  rw [endStep?_server host .acceptor h.found h.accepts] at step
  split at step
  · rcases h.attends.kind with kind | kind
    · rw [kind] at step
      dsimp only at step
      cases arrival : l.arrival .acceptor with
      | pending =>
          rw [arrival, serveStep?] at step
          split at step <;> exact nomatch step
      | ended fault =>
          rw [arrival, serveStep?] at step
          split at step
          · exact nomatch step
          · cases step
            have notes : n.Notes n := ⟨fun _ => .refl _, rfl⟩
            exact ⟨_, _, _, _, h.hungUp notes there h.found rfl rfl regular⟩
      | message bytes rest =>
          rw [arrival] at step
          rcases h.attends.session with serves | stops
          · exact h.received avoids serves arrival step regular
          · obtain ⟨t, found, vacant⟩ := stops.vacant
            rw [serveStep?, found] at step
            split at step
            · exact nomatch step
            · rename_i idle
              exact absurd (congrArg Option.isNone vacant) idle
    · rw [kind] at step
      cases step
      have vacated := fun a => n.peer_vacated (i := c.acceptor) (a := a) c.seat
      refine ⟨_, _, _, _, h.attended regular (.of_peer (vacated _) rfl)
        (links_modifyLink h.found _) rfl rfl rfl (h.attends.gone (vacant_vacated there c.seat) ?_)⟩
      exact (congrArg (·.kind? c.guest) (vacated _)).trans kind
  · exact nomatch step

end Standing

/-! ## Beginning -/

/-- A conversation begins when nothing was sent. -/
theorem standing_opened {host : String} {port : Nat} (regular : start.IsRegular)
    (there : c.opener < start.servers.size)
    (connected : connect c.opener host port start = .ok c.id n) (last : c.link = start.links.size)
    (joins : c.Joins n)
    (natural : ∀ s, start.servers[c.acceptor]? = some s → s.registry.IsNatural) (seat : Seat) :
    ∃ l, Standing c start seat [] [] [] [] [] l n := by
  have regular' : ((connect c.opener host port).after start).IsRegular := regular.connect there
  have after : (connect c.opener host port).after start = n := by rw [Act.after, connected]
  rw [after] at regular'
  obtain ⟨wired, less⟩ := regular.toIsWired.opened there
  have added := kind?_added (Array.getElem?_eq_getElem there) (some ⟨start.links.size, .empty⟩)
    (regular.toIsWired.new c.opener) c.opener c.id
  have grown := grows_added (n := start) (i := c.opener) (some ⟨start.links.size, .empty⟩) c.opener
  obtain ⟨opened, target, opens, id, joined⟩ := connect_eq_ok connected
  rw [← opens] at wired less added grown
  rw [← id] at less wired
  rw [if_pos ⟨rfl, id⟩] at added
  have accepts := opened.accepts target
  have links : (opened.accept target).1.links = start.links := accepts.links.trans (opens ▸ rfl)
  have found : n.links[c.link]? =
      some (.between (.server c.opener c.id) (opened.accept target).2) := by
    rw [joined, join, links, last]
    exact Array.getElem?_push_size
  have party : (opened.accept target).2 = .server c.acceptor c.guest := by
    obtain ⟨l, there, party⟩ := joins.accepts
    cases found.symm.trans there
    exact party
  have opener : n.kind? c.opener c.id = some (some ⟨start.links.size, .empty⟩) := by
    rw [joined]
    exact ((accepts.grows c.opener).kind c.id less).trans added
  have silent : (n.peer c.opener).heard c.id = [] := by
    rw [joined]
    refine (((accepts.grows c.opener).heard c.id).trans (grown.heard c.id)).trans ?_
    exact regular.silent c.opener c.id (Nat.le_of_eq id.symm)
  -- Whoever has accepted it is the server that was there, with one connection more.
  obtain ⟨s, accepting, rfl, guest⟩ := accept_eq_server party
  have kind := kind?_added accepting none (wired.new c.acceptor) c.acceptor c.guest
  rw [if_pos ⟨rfl, guest.trans (peer_of_found accepting ▸ rfl)⟩, kind?,
    ← peer_accept accepting c.acceptor] at kind
  have seated : n.servers[c.acceptor]? = some (Server.seated
      { s with peer := (s.peer.add none).1 } c.seat) := by
    rw [joined, accept_server accepting, ← guest]
    exact servers_modifyServer (servers_modifyPeer accepting _) _
  rw [opens] at accepting
  obtain ⟨t, there, same⟩ := server_of_modifyPeer accepting
  have settled : { s with peer := (s.peer.add none).1 } =
      { t with peer := (s.peer.add none).1 } := by rw [same]
  refine ⟨_, regular', found, rfl, party, rfl,
    ⟨silent, Nat.le_refl _, fun m ticket reply slot => ?_, .inl ⟨_, opener, rfl⟩⟩,
    List.prefix_rfl, .nil, fun _ => rfl, .inl (joined ▸ kind),
    .inl ⟨rfl, .nil, rfl, _, ?_, fun _ => rfl⟩⟩
  · cases slot
  · exact .begins settled (regular.offers _ _ there) (natural _ there) seated
      (servers_modifyServer there _)

end PeerScript.Network
