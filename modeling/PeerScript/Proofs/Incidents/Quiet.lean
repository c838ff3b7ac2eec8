import PeerScript.Proofs.Incidents.Regular

/-!
# What happens apart from a connection

What happens apart from a link is not heard at its ends, and nothing is sent there, unless its
opener sends another text.  The connection may be dropped, and then the requests that wait on it
have failed; and the session that serves it finds its frames as it has left them.
-/

set_option autoImplicit false

namespace PeerScript.Network

open Service (Server Seat)
open Peer (ConnectionId)
open Wire (Outcome Slot Ticket)

variable {n n' n'' : Network} {i j k a : Nat} {id x : ConnectionId} {s : Server} {side : Side}
  {links : Nat → Prop} {own : Seat → Prop}

/-! ## Servers -/

/-- A server leaves some of its sessions alone. -/
def Leaves (own : Seat → Prop) (j : Nat) (n n' : Network) : Prop :=
  ∀ s, n.servers[j]? = some s → ∃ s', n'.servers[j]? = some s' ∧ s.LeavesAlone own s'

theorem Leaves.of_servers (same : n'.servers = n.servers) : n.Leaves own j n' :=
  fun s found => ⟨s, same ▸ found, .refl own s⟩

theorem Leaves.trans (h : n.Leaves own j n') (k : n'.Leaves own j n'') : n.Leaves own j n'' := by
  intro s found
  obtain ⟨s', found', first⟩ := h s found
  obtain ⟨s'', found'', second⟩ := k s' found'
  exact ⟨s'', found'', first.trans second⟩

theorem leaves_modifyServer {change : Server → Server}
    (alone : ∀ s, n.servers[i]? = some s → j = i → s.LeavesAlone own (change s)) :
    n.Leaves own j (n.modifyServer i change) := by
  intro s found
  by_cases same : j = i
  · exact ⟨_, same ▸ servers_modifyServer (same ▸ found) change, alone s (same ▸ found) same⟩
  · exact ⟨s, (servers_modifyServer_of_ne same change).trans found, .refl own s⟩

theorem leaves_modifyPeer (change : Peer.Table → Peer.Table)
    (servers : n'.servers = (n.modifyPeer i change).servers) : n.Leaves own j n' := by
  have changed : n.Leaves own j (n.modifyPeer i change) := leaves_modifyServer fun _ _ _ =>
    ⟨rfl, rfl, rfl, .refl _, rfl, Nat.le_refl _, fun _ _ => rfl, fun _ _ _ _ => .refl _ _⟩
  exact changed.trans (.of_servers servers)

theorem leaves_drop (i : Nat) (id : ConnectionId) (reason : String) :
    n.Leaves own j (n.drop i id reason).1 :=
  leaves_modifyPeer (fun _ => ((n.peer i).drop id reason).1) rfl

/-- A new session leaves the others alone. -/
theorem leaves_accept (offers : ∀ (j : Nat) (s : Server), n.servers[j]? = some s →
      s.OffersBuiltins) (old : ∀ x, own (.connection x) → x < (n.peer j).nextId)
    (target : Target) : n.Leaves own j (n.accept target).1 := by
  cases target with
  | elsewhere => exact .of_servers rfl
  | remote port replies => exact .of_servers rfl
  | server k =>
      cases found : n.servers[k]? with
      | none =>
          rw [accept_absent found]
          exact .of_servers rfl
      | some s =>
          rw [accept_server found]
          refine (leaves_modifyPeer (fun _ => (s.peer.add none).1) rfl).trans
            (leaves_modifyServer fun t there same => ?_)
          subst same
          have number : (n.peer j).nextId = s.peer.nextId := by rw [peer_of_found found]
          obtain rfl : { s with peer := (s.peer.add none).1 } = t :=
            Option.some.inj ((servers_modifyPeer found _).symm.trans there)
          exact
            { settings := rfl
              registry := rfl
              globals := rfl
              extends_ := (s.store.widens_alloc _).toExtends
              root := Store.bindings_congr
                (Store.frames_alloc_of_lt _ (offers j s found).nonempty)
              serial := Nat.le_refl _
              idle := fun seat mine => by
                refine (Association.lookup_put ..).trans (if_neg ?_)
                rintro rfl
                exact Nat.lt_irrefl _ (number ▸ old _ mine)
              spared := fun _ _ _ _ => s.store.spares_alloc _ _ }

/-- What happens apart from some links leaves the sessions alone that serve them. -/
theorem IsRegular.leaves_incident (h : n.IsRegular) (happens : Incident links n n')
    (mine : links k) (held : n.HeldBy k side j x) : n.Leaves (· = .connection x) j n' := by
  have old : ∀ {n₁ : Network}, (n.peer j).nextId ≤ (n₁.peer j).nextId → ∀ y,
      Seat.connection y = .connection x → y < (n₁.peer j).nextId := by
    rintro n₁ grows y ⟨⟩
    exact Nat.lt_of_lt_of_le (h.held k side j x held) grows
  cases happens with
  | server peer alone =>
      refine leaves_modifyServer fun s found same => (alone s found).mono ?_
      rintro _ rfl
      exact ⟨k, side, x, mine, same ▸ held, rfl⟩
  | note notes => exact leaves_modifyPeer _ rfl
  | link outside parties => exact .of_servers rfl
  | @take i _ _ id text _ away =>
    exact leaves_modifyPeer (fun _ => ((n.peer i).respond id text).1) rfl
  | drop i id reason => exact leaves_drop i id reason
  | send i id text waits =>
      unfold Act.after Network.send
      cases (n.peer i).remote id with
      | error fault => exact .of_servers rfl
      | ok remote =>
          dsimp only
          have queued : n.Leaves (· = .connection x) j (n.queue i id waits) :=
            leaves_modifyPeer (·.pushSlot id (if waits then some n.nextTicket else none)) rfl
          cases n.write remote.link (Text.Utf8.encode text) with
          | error fault => exact queued.trans (leaves_drop i id Wire.connectionClosed)
          | ok frame => exact queued.trans (leaves_modifyPeer (·.noteSent id text) rfl)
  | @connect i host port there =>
      unfold Act.after Network.connect
      cases n.reach host port with
      | error fault => exact .of_servers rfl
      | ok target =>
          have opened : n.Leaves (· = .connection x) j (n.modifyPeer i fun _ =>
            ((n.peer i).add (some ⟨n.links.size, .empty⟩)).1) := leaves_modifyPeer _ rfl
          exact opened.trans (leaves_accept (fun _ _ => offers_modifyPeer h.offers)
            (old (grows_added _ j).nextId) target)
  | @attach i k n' attached =>
      obtain rfl := attach_eq_some attached
      exact leaves_accept h.offers (old (Nat.le_refl _)) (.server i)
  | addServer added =>
      obtain ⟨server, -, rfl⟩ := addServer_eq_ok added
      intro s found
      obtain ⟨lt, there⟩ := Array.getElem?_eq_some_iff.mp found
      exact ⟨s, there ▸ Array.getElem?_push_lt lt, .refl _ s⟩
  | around servers links outcomes tickets => exact .of_servers servers

/-! ## Connections -/

/-- Nothing was heard on a connection, and no request was answered there.  If it has been dropped,
the requests that waited on it have failed. -/
structure Quiet (n : Network) (a : Nat) (x : ConnectionId) (n' : Network) : Prop where
  heard : (n'.peer a).heard x = (n.peer a).heard x
  kind : n'.kind? a x = n.kind? a x ∨
    n'.kind? a x = none ∧ ∀ ticket ∈ n.tickets a x, ∃ o ∈ n'.outcomes, o.ticket = ticket
  outcomes : ∃ more, n'.outcomes = n.outcomes ++ more ∧
    ∀ o ∈ more, o.ticket ∈ n.tickets a x → ∃ fault, o.result = .error fault

/-- No request has ended. -/
theorem Quiet.of_same (heard : (n'.peer a).heard x = (n.peer a).heard x)
    (kind : n'.kind? a x = n.kind? a x) (outcomes : n'.outcomes = n.outcomes) : n.Quiet a x n' :=
  ⟨heard, .inl kind, [], outcomes.trans (List.append_nil _).symm, nofun⟩

/-- Something has been noted before. -/
theorem Quiet.behind_notes (notes : n.Notes n') (h : n'.Quiet a x n'') : n.Quiet a x n'' := by
  have kind := notes.kind? a x
  obtain ⟨more, ended, errors⟩ := h.outcomes
  refine ⟨h.heard.trans ((notes.tables a).heard x), ?_, more, notes.outcomes ▸ ended, ?_⟩
  · rw [← kind, ← tickets_congr kind]
    exact h.kind
  · rw [← tickets_congr kind]
    exact errors

theorem Quiet.of_peer (same : n'.peer a = n.peer a) (outcomes : n'.outcomes = n.outcomes) :
    n.Quiet a x n' :=
  .of_same (congrArg (·.heard x) same) (congrArg (·.kind? x) same) outcomes

/-- Nothing has happened to the connections of the server behind that. -/
theorem Quiet.and_peer (h : n.Quiet a x n') (same : n''.peer a = n'.peer a)
    (outcomes : n''.outcomes = n'.outcomes) : n.Quiet a x n'' where
  heard := (congrArg (·.heard x) same).trans h.heard
  kind := by
    rw [outcomes, kind?, same]
    exact h.kind
  outcomes := by
    rw [outcomes]
    exact h.outcomes

theorem Quiet.of_notes (notes : n.Notes n') : n.Quiet a x n' :=
  .of_same ((notes.tables a).heard x) (notes.kind? a x) notes.outcomes

theorem Quiet.of_grows (grows : (n.peer a).Grows (n'.peer a)) (old : x < (n.peer a).nextId)
    (outcomes : n'.outcomes = n.outcomes) : n.Quiet a x n' :=
  .of_same (grows.heard x) (grows.kind x old) outcomes

theorem failed_drop {ticket : Ticket} (reason : String) (waits : ticket ∈ n.tickets i id) :
    ∃ o ∈ (n.drop i id reason).1.outcomes, o.ticket = ticket := by
  rw [outcomes_drop]
  exact ⟨_, List.mem_append_right _ (List.mem_map_of_mem waits), rfl⟩

/-- A connection is dropped, this one or another one. -/
theorem quiet_drop (i : Nat) (id : ConnectionId) (reason : String) :
    n.Quiet a x (n.drop i id reason).1 where
  heard := peer_modifyPeer_rel (fun t t' => t'.heard x = t.heard x) (fun _ => rfl)
    (fun _ => ((n.peer i).drop id reason).1) ((n.peer i).heard_drop id x reason) a
  kind := by
    rw [kind?_drop]
    split
    · rename_i here
      exact .inr ⟨rfl, fun ticket waits => failed_drop reason (here.1 ▸ here.2 ▸ waits)⟩
    · exact .inl rfl
  outcomes := by
    refine ⟨_, outcomes_drop reason, fun o mem _ => ?_⟩
    obtain ⟨ticket, -, rfl⟩ := List.mem_map.mp mem
    exact ⟨_, rfl⟩

theorem peer_vacated (n : Network) (seat : Seat) :
    (n.modifyServer i (·.vacated seat)).peer a = n.peer a := by
  refine peer_modifyServer ?_ a
  exact fun _ _ => rfl

theorem peer_hangUp (k : Nat) (side : Side) (reason : String) :
    (n.hangUp k side i id reason).peer a = (n.drop i id reason).1.peer a := by
  have vacated : ((n.drop i id reason).1.modifyServer i (·.vacated (.connection id))).peer a =
      (n.drop i id reason).1.peer a := peer_vacated _ _
  rw [hangUp]
  exact vacated

theorem vacant_vacated (found : n.servers[i]? = some s) (seat : Seat) :
    ∃ s', (n.modifyServer i (·.vacated seat)).servers[i]? = some s' ∧ s'.idle.lookup seat = none :=
  ⟨_, servers_modifyServer found _, (Association.lookup_erase ..).trans (if_pos rfl)⟩

theorem vacant_hangUp (found : n.servers[i]? = some s) (k : Nat) (side : Side) (reason : String) :
    ∃ s', (n.hangUp k side i id reason).servers[i]? = some s' ∧
      s'.idle.lookup (.connection id) = none := by
  have dropped := servers_modifyPeer found fun _ => ((n.peer i).drop id reason).1
  have vacated := vacant_vacated (n := (n.drop i id reason).1) dropped (.connection id)
  rw [hangUp]
  exact vacated

/-- An inbound connection is taken away with its session. -/
theorem quiet_hangUp (k : Nat) (side : Side) (i : Nat) (id : ConnectionId) (reason : String) :
    n.Quiet a x (n.hangUp k side i id reason) :=
  (n.quiet_drop i id reason).and_peer (n.peer_hangUp k side reason) rfl

/-- A text that is sent is written at the opening end of the link, behind its slot. -/
theorem send_eq_ok {i : Nat} {id : ConnectionId} {text : String} {waits : Bool} {ticket : Ticket}
    (sent : send i id text waits n = .ok ticket n') : ∃ r frame,
    n.kind? i id = some (some r) ∧ n.write r.link (Text.Utf8.encode text) = .ok frame ∧
      ticket = n.nextTicket ∧ n' = ((n.queue i id waits).modifyLink r.link
        (·.write .opener frame)).modifyPeer i (·.noteSent id text) := by
  unfold send at sent
  split at sent
  · exact nomatch sent
  · rename_i r known
    split at sent
    · exact nomatch sent
    · rename_i frame written
      cases sent
      exact ⟨r, frame, kind?_of_remote known, written, rfl, rfl⟩

/-- A text cannot be sent, and the connection on which it should have been sent is closed. -/
theorem quiet_send_fails (waits : Bool) {r : Peer.Remote} (live : n.kind? i id = some (some r)) :
    n.Quiet a x ((n.queue i id waits).close i id).1 := by
  have dropped := (n.queue i id waits).quiet_drop (a := a) (x := x) i id Wire.connectionClosed
  have fewer : ∀ ticket ∈ n.tickets a x, ticket ∈ (n.queue i id waits).tickets a x := by
    intro ticket waiting
    rw [tickets, slots_queue waits live]
    split
    · rename_i here
      rw [here.1, here.2] at waiting
      rw [Wire.ticketsOf, List.filterMap_append]
      exact List.mem_append_left _ waiting
    · exact waiting
  refine ⟨dropped.heard.trans (heard_queue waits), ?_, ?_⟩
  · by_cases here : a = i ∧ x = id
    · have gone : ((n.queue i id waits).close i id).1.kind? a x = none := by
        rw [close, kind?_drop, if_pos here]
      refine .inr ⟨gone, fun ticket waiting => ?_⟩
      have waiting := fewer ticket waiting
      rw [here.1, here.2] at waiting
      exact failed_drop Wire.connectionClosed waiting
    · refine .inl ?_
      rw [close, kind?_drop, if_neg here, kind?_queue, if_neg here]
  · obtain ⟨more, outcomes, errors⟩ := dropped.outcomes
    exact ⟨more, outcomes, fun o mem waiting => errors o mem (fewer _ waiting)⟩

/-- What happens apart from some links is not noticed on the connections that hold them, unless one
of them sends a text. -/
theorem IsRegular.quiet_incident (h : n.IsRegular) (happens : Incident links n n') (mine : links k)
    (held : n.HeldBy k side a x)
    (unsent : ∀ text waits ticket, Network.send a x text waits n ≠ .ok ticket n') :
    n.Quiet a x n' := by
  have old := h.held k side a x held
  cases happens with
  | server peer alone => exact .of_peer (peer_modifyServer peer a) rfl
  | note notes =>
      exact .of_same ((notes_modifyPeer notes a).heard x) ((notes_modifyPeer notes a).kind? x) rfl
  | link outside parties => exact .of_peer rfl rfl
  | @take i _ _ id text _ away =>
      have other : ¬ (a = i ∧ x = id) := by
        rintro ⟨rfl, rfl⟩
        exact away ⟨k, side, x, mine, held, rfl⟩
      refine ⟨?_, .inl ((kind?_take text a x).trans (if_neg other)), _, outcomes_take text, ?_⟩
      · rw [heard_take, if_neg fun here => other ⟨here.1, here.2.1⟩]
      · intro o mem waiting
        obtain ⟨ticket, first, rfl⟩ := Option.map_eq_some_iff.mp (Option.mem_toList.mp mem)
        have there : ticket ∈ n.tickets i id := List.mem_filterMap.mpr
          ⟨some ticket, List.mem_of_mem_head? (Option.join_eq_some_iff.mp first), rfl⟩
        exact absurd (h.one a x i id ticket waiting there) other
  | drop i id reason => exact quiet_drop i id reason
  | send i id text waits =>
      unfold Act.after at unsent ⊢
      unfold Network.send at unsent ⊢
      cases known : (n.peer i).remote id with
      | error fault => exact .of_peer rfl rfl
      | ok remote =>
          have live := kind?_of_remote known
          rw [known] at unsent
          dsimp only at unsent ⊢
          cases written : n.write remote.link (Text.Utf8.encode text) with
          | error fault => exact quiet_send_fails waits live
          | ok frame =>
              have other : ¬ (a = i ∧ x = id) := by
                rintro ⟨rfl, rfl⟩
                rw [written] at unsent
                refine unsent text waits n.nextTicket ?_
                rw [known]
                dsimp only
                rw [written]
              have notes := fun s (_ : (n.queue i id waits).servers[i]? = some s) =>
                s.peer.notes_noteSent id text
              refine .of_same ?_ ?_ rfl
              · exact ((notes_modifyPeer notes a).heard x).trans (heard_queue waits)
              · exact ((notes_modifyPeer notes a).kind? x).trans
                  ((kind?_queue waits a x).trans (if_neg other))
  | @connect i host port there =>
      unfold Act.after Network.connect
      cases n.reach host port with
      | error fault => exact .of_peer rfl rfl
      | ok target =>
          have accepts := (n.modifyPeer i fun _ =>
            ((n.peer i).add (some ⟨n.links.size, .empty⟩)).1).accepts target
          exact .of_grows ((grows_added _ a).trans (accepts.grows a)) old accepts.outcomes
  | @attach i k n' attached =>
      obtain rfl := attach_eq_some attached
      have accepts := n.accepts (.server i)
      exact .of_grows (accepts.grows a) old accepts.outcomes
  | addServer added =>
      have outcomes : n'.outcomes = n.outcomes := by
        obtain ⟨server, -, rfl⟩ := addServer_eq_ok added
        rfl
      exact .of_same (peer_addServer (·.heard x) (fun _ => rfl) added a)
        (peer_addServer (·.kind? x) (fun _ => rfl) added a) outcomes
  | around servers links outcomes tickets =>
      refine .of_peer ?_ outcomes
      rw [peer, servers, peer]

/-! ## Links -/

theorem HeldBy.unique {b : Nat} {y : ConnectionId} (held : n.HeldBy k side a x)
    (held' : n.HeldBy k side b y) : a = b ∧ x = y := by
  obtain ⟨l, found, party⟩ := held
  obtain ⟨l', found', party'⟩ := held'
  obtain rfl : l = l' := Option.some.inj (found.symm.trans found')
  cases party.symm.trans party'
  exact ⟨rfl, rfl⟩

/-- The links that are there are as they were when one more is added. -/
theorem links_join (opener acceptor : Party) (same : n'.links = n.links) (lt : k < n.links.size) :
    (n'.join opener acceptor).links[k]? = n.links[k]? := by
  rw [join, Array.getElem?_push, same, if_neg (Nat.ne_of_lt lt)]

/-- Who writes at the opening end of a link is the one who holds it. -/
theorem IsRegular.holder (h : n.IsRegular) {r : Peer.Remote} (live : n.kind? i id = some (some r))
    (opens : n.HeldBy r.link .opener a x) : a = i ∧ x = id := by
  rcases h.remote i id r live with held | ⟨-, outside⟩
  · exact opens.unique held
  · exact nomatch outside

/-- A connection that was accepted has no remote. -/
theorem IsRegular.accepted (h : n.IsRegular) (accepts : n.HeldBy k .acceptor i id)
    (r : Peer.Remote) : n.kind? i id ≠ some (some r) := by
  intro live
  rcases h.remote i id r live with held | ⟨-, outside⟩
  · exact nomatch (h.single _ _ _ _ i id held accepts).2
  · exact nomatch outside

/-- On a connection that was accepted nothing is sent. -/
theorem IsRegular.send_accepted (h : n.IsRegular) (accepts : n.HeldBy k .acceptor i id)
    (text : String) (waits : Bool) (ticket : Ticket) :
    Network.send i id text waits n ≠ .ok ticket n' := by
  unfold Network.send
  cases known : (n.peer i).remote id with
  | error fault => exact nofun
  | ok remote => exact absurd (kind?_of_remote known) (h.accepted accepts remote)

/-- What happens apart from some links does not change them, unless one who has opened one of them
sends a text. -/
theorem IsRegular.link_incident (h : n.IsRegular) (happens : Incident links n n') (mine : links k)
    (opens : n.HeldBy k .opener a x) (accepts : n.HeldBy k .acceptor j id)
    (unsent : ∀ text waits ticket, Network.send a x text waits n ≠ .ok ticket n') :
    n'.links[k]? = n.links[k]? := by
  have lt := opens.lt
  cases happens with
  | server peer alone | note notes | take text held away | drop i id reason => rfl
  | @link k' change outside parties =>
      have other : k' ≠ k := by
        rintro rfl
        obtain ⟨l, side, found, outside⟩ := outside mine
        have held : ∃ i id, n.HeldBy k' side i id := by
          cases side with
          | opener => exact ⟨_, _, opens⟩
          | acceptor => exact ⟨_, _, accepts⟩
        obtain ⟨i, id, l', found', party⟩ := held
        obtain rfl : l = l' := Option.some.inj (found.symm.trans found')
        exact nomatch outside.symm.trans party
      rw [modifyLink, Array.getElem?_modify, if_neg other]
  | send i id text waits =>
      unfold Act.after at unsent ⊢
      unfold Network.send at unsent ⊢
      cases known : (n.peer i).remote id with
      | error fault => rfl
      | ok remote =>
          have live := kind?_of_remote known
          rw [known] at unsent
          dsimp only at unsent ⊢
          cases written : n.write remote.link (Text.Utf8.encode text) with
          | error fault => rfl
          | ok frame =>
              have other : remote.link ≠ k := by
                rintro rfl
                obtain ⟨rfl, rfl⟩ := h.holder live opens
                rw [written] at unsent
                refine unsent text waits n.nextTicket ?_
                rw [known]
                dsimp only
                rw [written]
              exact Array.getElem?_modify.trans (if_neg other)
  | @connect i host port there =>
      unfold Act.after Network.connect
      cases n.reach host port with
      | error fault => rfl
      | ok target =>
          have still := ((n.modifyPeer i fun _ =>
            ((n.peer i).add (some ⟨n.links.size, .empty⟩)).1).accepts target).links
          exact links_join _ _ (n := n) still lt
  | @attach i k n' attached =>
      obtain rfl := attach_eq_some attached
      exact links_join _ _ (n.accepts (.server i)).links lt
  | addServer added =>
      obtain ⟨server, -, rfl⟩ := addServer_eq_ok added
      rfl
  | around servers same outcomes tickets => rw [same]

end PeerScript.Network
