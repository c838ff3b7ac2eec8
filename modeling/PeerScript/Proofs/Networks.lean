import PeerScript.Proofs.Reception

/-!
# Changing one server of a network

A change of one server leaves the others and their connections as they are.  These lemmas say what
is left of a network behind such changes, one after another, behind a server that accepts a
connection, and behind those who come to it.
-/

set_option autoImplicit false

namespace PeerScript

open Service (Server Seat)

theorem Peer.Table.find?_update (t : Peer.Table) (id other : Peer.ConnectionId)
    (change : Peer.Entry → Peer.Entry) : (t.update id change).find? other =
      if other = id then (t.find? other).map change else t.find? other :=
  Association.lookup_update id other change t.entries

namespace Network

variable {n n' : Network} {i j : Nat} {s : Server} {change change' : Server → Server}

/-! ## Servers -/

theorem modifyServer_congr (same : ∀ s, n.servers[i]? = some s → change s = change' s) :
    n.modifyServer i change = n.modifyServer i change' := by
  refine congrArg (fun servers => { n with servers }) (Array.ext_getElem? fun k => ?_)
  rw [Array.getElem?_modify, Array.getElem?_modify]
  split
  · rename_i here
    subst here
    cases found : n.servers[i]? with
    | none => rfl
    | some s => exact congrArg some (same s found)
  · rfl

theorem modifyServer_modifyServer (change change' : Server → Server) :
    (n.modifyServer i change).modifyServer i change' =
      n.modifyServer i fun s => change' (change s) := by
  refine congrArg (fun servers => { n with servers }) (Array.ext_getElem? fun k => ?_)
  change ((n.servers.modify i change).modify i change')[k]? = _
  rw [Array.getElem?_modify, Array.getElem?_modify, Array.getElem?_modify]
  split
  · cases n.servers[k]? <;> rfl
  · rfl

theorem modifyServer_id (n : Network) (i : Nat) : n.modifyServer i id = n := by
  refine congrArg (fun servers => { n with servers }) (Array.ext_getElem? fun k => ?_)
  rw [Array.getElem?_modify]
  split
  · exact Option.map_id' ..
  · rfl

theorem modifyServer_eq_self (same : ∀ s, n.servers[i]? = some s → change s = s) :
    n.modifyServer i change = n :=
  (modifyServer_congr same).trans (n.modifyServer_id i)

theorem modifyServer_of_absent (absent : n.servers[i]? = none) : n.modifyServer i change = n :=
  modifyServer_eq_self fun _ found => nomatch absent.symm.trans found

theorem servers_modifyServer_of_ne (other : j ≠ i) (change : Server → Server) :
    (n.modifyServer i change).servers[j]? = n.servers[j]? := by
  rw [modifyServer, Array.getElem?_modify, if_neg (Ne.symm other)]

/-- A server is one that was there, which may have been changed. -/
theorem server_of_modifyServer (found : (n.modifyServer i change).servers[j]? = some s) :
    ∃ t, n.servers[j]? = some t ∧ (j ≠ i ∧ s = t ∨ j = i ∧ s = change t) := by
  rw [modifyServer, Array.getElem?_modify] at found
  split at found
  · rename_i same
    obtain ⟨t, there, rfl⟩ := Option.map_eq_some_iff.mp found
    exact ⟨t, there, .inr ⟨same.symm, rfl⟩⟩
  · rename_i ne
    exact ⟨s, found, .inl ⟨Ne.symm ne, rfl⟩⟩

/-- The connections of one server are changed, and each server is the same apart from them. -/
theorem server_of_modifyPeer {table : Peer.Table → Peer.Table}
    (found : (n.modifyPeer i table).servers[j]? = some s) :
    ∃ t, n.servers[j]? = some t ∧ s = { t with peer := s.peer } := by
  obtain ⟨t, there, ⟨-, rfl⟩ | ⟨-, rfl⟩⟩ := server_of_modifyServer found
  · exact ⟨s, there, rfl⟩
  · exact ⟨t, there, rfl⟩

/-! ## Connections -/

theorem peer_of_found (found : n.servers[i]? = some s) : n.peer i = s.peer := by
  rw [peer, found]
  rfl

theorem peer_of_absent (absent : n.servers[i]? = none) : n.peer i = .new 0 := by
  rw [peer, absent]
  rfl

theorem peer_modifyServer_of_ne (ne : j ≠ i) : (n.modifyServer i change).peer j = n.peer j := by
  rw [peer, peer, servers_modifyServer_of_ne ne]

/-- The connections stay the same when they do so in the server that is changed. -/
theorem peer_modifyServer (same : ∀ s, n.servers[i]? = some s → (change s).peer = s.peer)
    (j : Nat) : (n.modifyServer i change).peer j = n.peer j := by
  by_cases here : j = i
  · subst here
    cases found : n.servers[j]? with
    | none => rw [modifyServer_of_absent found]
    | some s => rw [peer_of_found (servers_modifyServer found _), same s found, peer_of_found found]
  · exact peer_modifyServer_of_ne here

/-- What is true of a table before and after a change is true of all tables. -/
theorem peer_modifyPeer_rel (rel : Peer.Table → Peer.Table → Prop) (refl : ∀ t, rel t t)
    (change : Peer.Table → Peer.Table) (changed : rel (n.peer i) (change (n.peer i))) (j : Nat) :
    rel (n.peer j) ((n.modifyPeer i change).peer j) := by
  by_cases here : j = i
  · subst here
    cases found : n.servers[j]? with
    | none =>
        rw [modifyPeer, modifyServer_of_absent found]
        exact refl _
    | some s => rwa [peer_modifyPeer found, ← peer_of_found found]
  · rw [modifyPeer, peer_modifyServer_of_ne here]
    exact refl _

/-! ## Accepting -/

theorem accept_absent (absent : n.servers[j]? = none) :
    n.accept (.server j) = (n, .outside) := by
  simp only [accept, absent]

/-- A server that accepts a connection gives it a number and a session. -/
theorem accept_server (found : n.servers[j]? = some s) :
    n.accept (.server j) = ((n.modifyPeer j fun _ => (s.peer.add none).1).modifyServer j
      (·.seated (.connection s.peer.nextId)), .server j s.peer.nextId) := by
  rw [modifyPeer, modifyServer_modifyServer]
  have seated : n.modifyServer j (fun s' =>
        Server.seated { s' with peer := (s.peer.add none).1 } (.connection s.peer.nextId)) =
      n.modifyServer j fun _ =>
        Server.seated { s with peer := (s.peer.add none).1 } (.connection s.peer.nextId) :=
    modifyServer_congr fun t there => by rw [Option.some.inj (there.symm.trans found)]
  rw [seated]
  simp only [accept, found]
  rfl

/-- Whoever accepts the new connection has given it its number and a session. -/
theorem accept_eq_server {target : Target} {j : Nat} {guest : Peer.ConnectionId}
    (accepted : (n.accept target).2 = .server j guest) : ∃ s, n.servers[j]? = some s ∧
      target = .server j ∧ guest = s.peer.nextId := by
  cases target with
  | elsewhere => exact nomatch accepted
  | remote port replies => exact nomatch accepted
  | server k =>
      cases found : n.servers[k]? with
      | none =>
          rw [accept_absent found] at accepted
          exact nomatch accepted
      | some s =>
          rw [accept_server found] at accepted
          cases accepted
          exact ⟨s, found, rfl, rfl⟩

/-! ## Coming to a network -/

/-- A server that is added stands behind the others. -/
theorem addServer_eq_ok {settings : Settings} {registry : Registry}
    (added : addServer settings registry n = .ok i n') :
    ∃ server, Server.new settings registry n.servers.size = .ok server ∧
      n' = { n with servers := n.servers.push server } := by
  unfold addServer at added
  cases made : Server.new settings registry n.servers.size with
  | error fault =>
      rw [made] at added
      cases added
  | ok server =>
      rw [made] at added
      cases added
      exact ⟨server, rfl, rfl⟩

/-- A server opens a connection, which somebody accepts. -/
theorem connect_eq_ok {host : String} {port : Nat} {id : Peer.ConnectionId}
    (connected : connect i host port n = .ok id n') : ∃ opened target,
      opened = (n.modifyPeer i fun _ => ((n.peer i).add (some ⟨n.links.size, .empty⟩)).1) ∧
      id = (n.peer i).nextId ∧
      n' = (opened.accept target).1.join (.server i id) (opened.accept target).2 := by
  unfold connect at connected
  split at connected
  · cases connected
  · rename_i target reached
    cases connected
    exact ⟨_, target, rfl, rfl, rfl⟩

/-- Somebody outside connects with a server, which accepts. -/
theorem attach_eq_some {k : Nat} (attached : n.attach i = some (n', k)) :
    n' = (n.accept (.server i)).1.join .outside (n.accept (.server i)).2 := by
  unfold attach at attached
  split at attached
  · cases attached
  · dsimp only at attached
    split at attached
    · cases attached
      rfl
    · cases attached

end Network

end PeerScript
