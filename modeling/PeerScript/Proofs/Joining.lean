import PeerScript.Proofs.Connections
import PeerScript.Proofs.Refusals
import PeerScript.Proofs.Shorthands
import PeerScript.Proofs.Shorthands.Calls

/-!
# Joining is all or nothing

`join` connects to the configured address and then enters the newest outbound connection, which is
the one that has just been made.  When nobody answers, nothing has happened yet, and `enter` does
not run.

The operator between the two calls cuts nothing short: it is the fault of the first call that keeps
the second one from being made.  Both calls give a number, and the number of a connection is never
zero.
-/

set_option autoImplicit false

namespace PeerScript

open Peer (ConnectionId Table Traffic Access Direction)
open Service (Server PeerCall peerName serverName valueOfId)

/-! ## Tables -/

namespace Peer.Table

variable {t : Table}

/-- The table with a new outbound connection, and with the inbound one as well if the server has
connected to itself. -/
def opened (t : Table) (link : Nat) (looped : Bool) : Table :=
  let t' := (t.add (some ⟨link, .empty⟩)).1
  if looped then (t'.add none).1 else t'

theorem Sound.opened (h : t.Sound) (link : Nat) (looped : Bool) : (t.opened link looped).Sound := by
  have first := h.add (some ⟨link, .empty⟩)
  unfold Table.opened
  cases looped with
  | false => exact first
  | true => exact first.add none

/-- What is new in the table: the outbound connection, and the inbound one if there is one. -/
theorem entries_opened (t : Table) (link : Nat) (looped : Bool) :
    (t.opened link looped).entries = t.entries ++
      (t.nextId, ⟨.new t.nextId .outbound t.historyLimit, some ⟨link, .empty⟩⟩) ::
        if looped then [(t.nextId + 1, ⟨.new (t.nextId + 1) .inbound t.historyLimit, none⟩)]
          else [] := by
  cases looped with
  | false => rfl
  | true => exact List.append_assoc ..

/-- The new connection is the newest outbound one. -/
theorem Sound.enter_opened (h : t.Sound) (link : Nat) (looped : Bool) :
    (t.opened link looped).enter none = .ok
    ({ t.opened link looped with entered := some t.nextId }, t.nextId) := by
  have sound := h.opened link looped
  have filed := t.entries_opened link looped
  have there : (t.opened link looped).find? t.nextId =
      some ⟨.new t.nextId .outbound t.historyLimit, some ⟨link, .empty⟩⟩ := by
    refine sound.find?_of_mem ?_
    rw [filed]
    exact List.mem_append_right _ List.mem_cons_self
  refine sound.enter_newest.mpr ⟨rfl, ⟨_, there, rfl⟩, fun other outbound => ?_⟩
  · obtain ⟨entry, found, remote⟩ := outbound
    have mem := mem_of_find? found
    rw [filed, List.mem_append, List.mem_cons] at mem
    rcases mem with old | new | accepted
    · exact Nat.le_of_lt (h.lt_of_live (List.mem_map_of_mem old))
    · cases new
      exact Nat.le_refl _
    · cases looped with
      | false => exact nomatch accepted
      | true =>
          cases List.mem_singleton.mp accepted
          exact nomatch remote

/-- The number of a new connection is above all numbers that were ever given. -/
theorem Sound.lt_nextId (h : t.Sound) {id : ConnectionId} (mem : id ∈ t.made) : id < t.nextId := by
  rw [h.made, List.mem_range'_1] at mem
  exact Nat.lt_of_lt_of_eq mem.2 (Nat.add_sub_cancel' h.first)

end Peer.Table

/-- The number of a connection counts as true. -/
theorem truthy_valueOfId {id : ConnectionId} (pos : 0 < id) (small : id < UInt64.size) :
    (valueOfId id).truthy = true := by
  rw [valueOfId, Value.truthy, bne_iff_ne, ne_eq, ← Int64.toBitVec_inj]
  intro zero
  have same : (BitVec.ofNat 64 id).toNat = 0 := congrArg BitVec.toNat zero
  rw [BitVec.toNat_ofNat, Nat.mod_eq_of_lt small] at same
  exact Nat.ne_of_gt pos same

/-! ## Networks -/

namespace Network

variable {n n' : Network} {i : Nat} {host : String} {port : Nat} {target : Target}
  {settle : Network → Network}
  {m m' : Machine Network} {levels : Nat} {scope : FrameId}

/-- The server itself is reached. -/
def Target.isServer (i : Nat) : Target → Bool
  | .server j => j == i
  | .remote .. | .elsewhere => false

/-- Who waits at a port depends on who listens. -/
theorem waiting_modifyServer {change : Service.Server → Service.Server}
    (keeps : ∀ s, (change s).listening = s.listening) :
    (n.modifyServer i change).waiting = n.waiting := by
  have listening : (n.modifyServer i change).servers.map Server.listening =
      n.servers.map Server.listening := by
    refine Array.ext_getElem? fun k => ?_
    rw [Array.getElem?_map, Array.getElem?_map, modifyServer, Array.getElem?_modify]
    split
    · rw [Option.map_map]
      exact congrArg (fun f => Option.map f n.servers[k]?) (funext keeps)
    · rfl
  unfold waiting
  rw [listening]
  rfl

/-- Who is reached depends on who listens. -/
theorem reach_modifyServer {change : Service.Server → Service.Server}
    (keeps : ∀ s, (change s).listening = s.listening) :
    (n.modifyServer i change).reach host port = n.reach host port := by
  unfold reach
  rw [waiting_modifyServer keeps]
  rfl

/-- What a server sees of a connection that is accepted: nothing, unless it accepts the connection
itself. -/
theorem accept_opener {s : Server} (found : n.servers[i]? = some s) (target : Target) :
    ∃ s', (n.accept target).1.servers[i]? = some s' ∧
      s'.peer = (if target.isServer i then (s.peer.add none).1 else s.peer) ∧
      s.store.Spares (fun _ => False) s'.store := by
  cases target with
  | elsewhere => exact ⟨s, found, rfl, .refl _ _⟩
  | remote port replies => exact ⟨s, found, rfl, .refl _ _⟩
  | server j =>
      by_cases same : j = i
      · subst same
        refine ⟨{ s with peer := (s.peer.add none).1 }.seated (.connection (s.peer.add none).2),
          ?_, ?_, s.store.spares_alloc _ (some s.globals)⟩
        · simp only [accept, found]
          exact servers_modifyServer found _
        · rw [Target.isServer, beq_self_eq_true, if_pos rfl]
          rfl
      · refine ⟨s, ?_, ?_, .refl _ _⟩
        · cases there : n.servers[j]? with
          | none => simpa only [accept, there] using found
          | some t =>
              simp only [accept, there]
              rw [modifyServer, Array.getElem?_modify, if_neg same]
              exact found
        · rw [Target.isServer, beq_false_of_ne same]
          rfl

/-- What a connection that is made changes on the side that opens it. -/
theorem connect_opens {s : Server} (found : n.servers[i]? = some s)
    (reached : n.reach host port = .ok target) :
    ∃ n' s', connect i host port n = .ok (n.peer i).nextId n' ∧ n'.servers[i]? = some s' ∧
      s'.peer = (n.peer i).opened n.links.size (target.isServer i) ∧
      s.store.Spares (fun _ => False) s'.store := by
  let table : Table := ((n.peer i).add (some ⟨n.links.size, .empty⟩)).1
  have added : (n.modifyPeer i fun _ => table).servers[i]? = some { s with peer := table } :=
    servers_modifyPeer found fun _ => table
  obtain ⟨s', found', peer, spares⟩ := accept_opener added target
  refine ⟨((n.modifyPeer i fun _ => table).accept target).1.join (.server i (n.peer i).nextId)
    ((n.modifyPeer i fun _ => table).accept target).2, s', ?_, found', peer, spares⟩
  unfold connect
  rw [reached]
  rfl

/-! ## Methods of the peer in a scope -/

/-- A method of the peer that acts and gives a value. -/
theorem evalTree_acting (levels : Nat) {α : Type} {method : String} {args : List Value}
    {call : PeerCall} {act : Act α} {value : α → Value}
    (plain : ∀ v ∈ args, ∀ ps b f, v ≠ .closure ps b f)
    (asks : PeerCall.ofArgs method args = .ok call)
    (acts : peerMethod settle i call = acting i act fun a => .give (value a))
    (found : m.common.store.get? scope "peer" = some (.object ⟨peerName, i⟩))
    (room : m.session.depth < invocationLimit) :
    evalTree (hostWith settle) (inside (hostWith settle) (levels + 1))
      (.invoke ⟨["peer", method]⟩ (args.map .literal)) scope m =
      match act (withShared i m.whole) with
      | .ok a n => .ok () ((m.changed (sharedIn i m.whole n)).push (value a))
      | .error fault n => .error (.failed fault) (m.changed (sharedIn i m.whole n)) := by
  have isPeer : (hostWith settle).method ⟨peerName, i⟩ method args =
      acting i act fun a => .give (value a) := by
    rw [method_peer, asks]
    exact acts
  rw [evalTree_method args plain found room, isPeer, runMethod_acting]
  have shared : withShared i m.enter.whole = withShared i m.whole := rfl
  rw [shared]
  cases act (withShared i m.whole) <;> rfl

/-- Behind an act that leaves the frames of the server as they are. -/
theorem pushed_changed {s' : Server} (found : n.servers[i]? = some s')
    (spares : m.common.store.Spares (fun _ => False) s'.store) :
    m.Pushed [] (m.changed (sharedIn i m.whole n)) where
  session := rfl
  frames := by
    change m.common.store.Spares _ (sharedIn i m.whole n).store
    rw [store_sharedIn, storeOf, found]
    exact spares

theorem servers_withShared {s : Server} {c : Common Network}
    (found : c.world.servers[i]? = some s) :
    (withShared i c).servers[i]? = some (s.reclaim c) := servers_modifyServer found _

theorem reach_withShared (i : Nat) (c : Common Network) :
    (withShared i c).reach = c.world.reach := by
  funext host port
  exact reach_modifyServer fun s : Server => (rfl : (s.reclaim c).listening = s.listening)

section Shorthands

variable {α : Type} {name method : String} (args : List Value) {call : PeerCall} {act : Act α}
  (value : α → Value)
  (bound : m.common.store.get? scope name =
    some (.closure [] (.sequence [.invoke ⟨["peer", method]⟩ (args.map .literal)]) none))
  (peer : m.common.store.get? scope "peer" = some (.object ⟨peerName, i⟩))
  (plain : ∀ v ∈ args, ∀ ps b f, v ≠ .closure ps b f)
  (asks : PeerCall.ofArgs method args = .ok call)
  (acts : peerMethod settle i call = acting i act fun a => .give (value a))
  (room : m.session.depth + 2 ≤ invocationLimit)

include bound peer plain asks acts room

/-- A shorthand for a method of the peer pushes what the method gives. -/
theorem shorthand_gives {a : α} {s' : Server}
    (ran : act (withShared i (m.calling scope).whole) = .ok a n') (found : n'.servers[i]? = some s')
    (spares : (m.calling scope).common.store.Spares (fun _ => False) s'.store) :
    ∃ m', evalTree (hostWith settle) (inside (hostWith settle) (levels + 2))
      (.invoke ⟨[name]⟩ []) scope m =
        .ok () m' ∧ m.Pushed [value a] m' ∧ m'.common.world.servers[i]? = some s' := by
  have body := evalTree_acting levels plain asks acts (get?_calling peer) (Nat.lt_of_succ_le room)
  rw [ran] at body
  have given : (m.calling scope).Pushed [value a] _ := (pushed_changed found spares).push (value a)
  obtain ⟨called, pushed⟩ := evalTree_shorthand_ok bound (Nat.lt_of_succ_lt room) body given
  refine ⟨_, called, pushed, ?_⟩
  change (sharedIn i (m.calling scope).whole n').world.servers[i]? = _
  rw [world_sharedIn]
  exact found

/-- A shorthand for a method of the peer fails as the method does. -/
theorem shorthand_fails {fault : Fault} {s' : Server}
    (ran : act (withShared i (m.calling scope).whole) = .error fault n')
    (found : n'.servers[i]? = some s')
    (spares : (m.calling scope).common.store.Spares (fun _ => False) s'.store) :
    ∃ m', evalTree (hostWith settle) (inside (hostWith settle) (levels + 2))
      (.invoke ⟨[name]⟩ []) scope m =
        .error (.failed fault) m' ∧ m.Pushed [] m' ∧ m'.common.world.servers[i]? = some s' := by
  have body := evalTree_acting levels plain asks acts (get?_calling peer) (Nat.lt_of_succ_le room)
  rw [ran] at body
  obtain ⟨called, pushed⟩ :=
    evalTree_shorthand_error bound (Nat.lt_of_succ_lt room) body (pushed_changed found spares)
  refine ⟨_, called, pushed, ?_⟩
  change (sharedIn i (m.calling scope).whole n').world.servers[i]? = _
  rw [world_sharedIn]
  exact found

end Shorthands

theorem asks_connect_of_lt {bootstrap : Bootstrap} (small : bootstrap.port < 65536) :
    PeerCall.ofArgs "Connect" [.str bootstrap.host, .int (.ofNat bootstrap.port)] =
      .ok (.connect bootstrap.host bootstrap.port) := by
  have port := Service.toInt_ofNat_of_lt small
  change (if 0 ≤ (Int64.ofNat bootstrap.port).toInt ∧
    (Int64.ofNat bootstrap.port).toInt < 65536 then
    Except.ok (PeerCall.connect bootstrap.host (Int64.ofNat bootstrap.port).toInt.toNat) else _) = _
  rw [port, if_pos ⟨by omega, by omega⟩, Int.toNat_natCast]

/-- The tree of `connect`. -/
def connectTree (bootstrap : Bootstrap) : Tree :=
  .invoke ⟨["peer", "Connect"]⟩
    [.literal (.str bootstrap.host), .literal (.int (.ofNat bootstrap.port))]

/-- The tree of `join`. -/
def joinTree : Tree :=
  .invoke ⟨["assert"]⟩ [.op .and [.invoke ⟨["connect"]⟩ [], .invoke ⟨["enter"]⟩ []]]

/-- A scope in which the shorthands are found as a new server binds them, with the names that they
use. -/
structure Offered (bootstrap : Bootstrap) (i : Nat) (s : Store) (scope : FrameId) : Prop where
  peer : s.get? scope "peer" = some (.object ⟨peerName, i⟩)
  assert : s.get? scope "assert" = some (.native .assert)
  connect : s.get? scope "connect" = some (.closure [] (.sequence [connectTree bootstrap]) none)
  enter : s.get? scope "enter" =
    some (.closure [] (.sequence [.invoke ⟨["peer", "Enter"]⟩ []]) none)
  join : s.get? scope "join" = some (.closure [] (.sequence [joinTree]) none)
  leave : s.get? scope "leave" =
    some (.closure [] (.sequence [.invoke ⟨["peer", "Leave"]⟩ []]) none)

namespace Offered

variable {bootstrap : Bootstrap} (h : Offered bootstrap i m.common.store scope)

include h

theorem calling : Offered bootstrap i (m.calling scope).common.store m.common.store.frames.size :=
  ⟨get?_calling h.peer, get?_calling h.assert, get?_calling h.connect, get?_calling h.enter,
    get?_calling h.join, get?_calling h.leave⟩

theorem pushed {vs : List Value} (pushed : m.Pushed vs m') :
    Offered bootstrap i m'.common.store scope :=
  have same := pushed.frames
  ⟨same.get?_eq h.peer, same.get?_eq h.assert, same.get?_eq h.connect, same.get?_eq h.enter,
    same.get?_eq h.join, same.get?_eq h.leave⟩

variable (settle levels) {s : Server} (found : m.common.world.servers[i]? = some s)

include found

/-- `connect` gives the number of the connection that it makes. -/
theorem connects (room : m.session.depth + 2 ≤ invocationLimit) (small : bootstrap.port < 65536)
    (reached : m.common.world.reach bootstrap.host bootstrap.port = .ok target) :
    ∃ m' s', evalTree (hostWith settle) (inside (hostWith settle) (levels + 2))
      (.invoke ⟨["connect"]⟩ []) scope m =
        .ok () m' ∧ m.Pushed [valueOfId s.peer.nextId] m' ∧ m'.common.world.servers[i]? = some s' ∧
      s'.peer = s.peer.opened m.common.world.links.size (target.isServer i) := by
  have shared := servers_withShared (c := (m.calling scope).whole) found
  have reached := (congrFun₂ (reach_withShared i (m.calling scope).whole) _ _).trans reached
  obtain ⟨n', s', ran, found', peer, spares⟩ := connect_opens shared reached
  rw [peer_of_found shared] at ran peer
  obtain ⟨m', called, pushed, found'⟩ :=
    shorthand_gives _ valueOfId h.connect h.peer (by simp) (asks_connect_of_lt small) rfl room
      ran found' spares
  exact ⟨m', s', called, pushed, found', peer⟩

/-- `connect` does nothing when nobody answers. -/
theorem connects_not (room : m.session.depth + 2 ≤ invocationLimit) (small : bootstrap.port < 65536)
    {fault : Fault} (refused : m.common.world.reach bootstrap.host bootstrap.port = .error fault) :
    ∃ m' s', evalTree (hostWith settle) (inside (hostWith settle) (levels + 2))
      (.invoke ⟨["connect"]⟩ []) scope m =
        .error (.failed fault) m' ∧
      m.Pushed [] m' ∧ m'.common.world.servers[i]? = some s' ∧ s'.peer = s.peer := by
  have shared := servers_withShared (c := (m.calling scope).whole) found
  have refused := (congrFun₂ (reach_withShared i (m.calling scope).whole) _ _).trans refused
  have ran : Network.connect i bootstrap.host bootstrap.port
      (withShared i (m.calling scope).whole) =
      .error fault (withShared i (m.calling scope).whole) := by
    rw [Network.connect, refused]
  obtain ⟨m', called, pushed, found'⟩ :=
    shorthand_fails _ valueOfId h.connect h.peer (by simp) (asks_connect_of_lt small) rfl room ran
      shared (.refl _ _)
  exact ⟨m', _, called, pushed, found', rfl⟩

/-- `enter` gives the number of the remote that it enters. -/
theorem enters (room : m.session.depth + 2 ≤ invocationLimit) {t : Table} {id : ConnectionId}
    (newest : s.peer.enter none = .ok (t, id)) :
    ∃ m' s', evalTree (hostWith settle) (inside (hostWith settle) (levels + 2))
      (.invoke ⟨["enter"]⟩ []) scope m =
        .ok () m' ∧ m.Pushed [valueOfId id] m' ∧ m'.common.world.servers[i]? = some s' ∧
        s'.peer = t := by
  have shared := servers_withShared (c := (m.calling scope).whole) found
  have ran : Network.enter i none (withShared i (m.calling scope).whole) =
      .ok id ((withShared i (m.calling scope).whole).modifyPeer i fun _ => t) := by
    have enters : ((withShared i (m.calling scope).whole).peer i).enter none = .ok (t, id) := by
      rw [peer_of_found shared]
      exact newest
    rw [Network.enter, enters]
  obtain ⟨m', called, pushed, found'⟩ :=
    shorthand_gives [] valueOfId h.enter h.peer (List.forall_mem_nil _) rfl rfl
    room ran
    (servers_modifyPeer shared fun _ => t) (.refl _ _)
  exact ⟨m', _, called, pushed, found', rfl⟩

/-- `leave` tells whether a remote was entered. -/
theorem leaves (room : m.session.depth + 2 ≤ invocationLimit) :
    ∃ m' s', evalTree (hostWith settle) (inside (hostWith settle) (levels + 2))
      (.invoke ⟨["leave"]⟩ []) scope m =
        .ok () m' ∧ m.Pushed [.bool s.peer.entered.isSome] m' ∧
        m'.common.world.servers[i]? = some s' ∧
      s'.peer = s.peer.leave.1 := by
  have shared := servers_withShared (c := (m.calling scope).whole) found
  have ran : Network.leave i (withShared i (m.calling scope).whole) =
      .ok s.peer.entered
        ((withShared i (m.calling scope).whole).modifyPeer i fun t => t.leave.1) := by
    rw [Network.leave, peer_of_found shared]
    rfl
  obtain ⟨m', called, pushed, found'⟩ :=
    shorthand_gives [] (fun left : Option ConnectionId => .bool left.isSome)
    h.leave h.peer nofun rfl rfl room ran
    (servers_modifyPeer shared fun t => t.leave.1) (.refl _ _)
  exact ⟨m', _, called, pushed, found', rfl⟩

omit found in
/-- An assertion that holds leaves nothing behind. -/
theorem asserts :
    dispatch (hostWith settle) (inside (hostWith settle) levels) (.invoke ⟨["assert"]⟩)
    [.bool true] scope m = .ok () m := by
  rw [dispatch]
  refine (Run.bind_of_ok (lookup_of_get? h.assert)).trans ?_
  rfl

end Offered

namespace Offered

variable {bootstrap : Bootstrap} (h : Offered bootstrap i m.common.store scope) (settle levels)
  {s : Server} (found : m.common.world.servers[i]? = some s)
  (room : m.session.depth + 3 ≤ invocationLimit)
  (small : bootstrap.port < 65536)

include h found room small

/-- `join` makes one connection and enters it. -/
theorem joins (reached : m.common.world.reach bootstrap.host bootstrap.port = .ok target)
    (sound : s.peer.Sound) (few : s.peer.nextId < UInt64.size) :
    ∃ m' s', evalTree (hostWith settle) (inside (hostWith settle) (levels + 3))
      (.invoke ⟨["join"]⟩ []) scope m =
        .ok () m' ∧ m.Pushed [] m' ∧ m'.common.world.servers[i]? = some s' ∧
      s'.peer = { s.peer.opened m.common.world.links.size (target.isServer i) with
        entered := some s.peer.nextId } := by
  let frame := m.common.store.frames.size
  have inner : (m.calling scope).session.depth + 2 ≤ invocationLimit := by
    change m.session.depth + 1 + 2 ≤ invocationLimit
    omega
  -- the first call makes the connection
  obtain ⟨m₁, s₁, connected, pushed₁, found₁, peer₁⟩ :=
    h.calling.connects settle levels found inner small reached
  -- the second one enters it, for it is the newest
  have depth₁ : m₁.session.depth = (m.calling scope).session.depth := by rw [pushed₁.session]; rfl
  obtain ⟨m₂, s₂, entered, pushed₂, found₂, peer₂⟩ :=
    (h.calling.pushed pushed₁).enters settle levels found₁
    (depth₁ ▸ inner) (peer₁ ▸ sound.enter_opened m.common.world.links.size (target.isServer i))
  have both := pushed₁.trans pushed₂
  have truthy := truthy_valueOfId sound.first few
  have operands : evalTrees (hostWith settle) (inside (hostWith settle) (levels + 2))
      [.invoke ⟨["connect"]⟩ [], .invoke ⟨["enter"]⟩ []] frame (m.calling scope) = .ok () m₂ := by
    rw [evalTrees_cons_of_ok _ _ connected, evalTrees_cons_of_ok _ _ entered, evalTrees]
    rfl
  have holds : evalTree (hostWith settle) (inside (hostWith settle) (levels + 2))
      (.op .and [.invoke ⟨["connect"]⟩ [], .invoke ⟨["enter"]⟩ []]) frame (m.calling scope) =
        .ok () ((m₂.withStack (m.calling scope).session.stack).push (.bool true)) := by
    rw [Tree.op, evalTree_pushed (by rintro ⟨⟩) operands both]
    change (Run.ofExcept (.ok (.bool (Value.truthy _ && Value.truthy _))) >>= Run.push) _ = _
    rw [truthy]
    rfl
  have top := both.lowered.push (.bool true)
  have holding : evalTrees (hostWith settle) (inside (hostWith settle) (levels + 2))
      [.op .and [.invoke ⟨["connect"]⟩ [], .invoke ⟨["enter"]⟩ []]] frame (m.calling scope) =
        .ok () ((m₂.withStack (m.calling scope).session.stack).push (.bool true)) := by
    rw [evalTrees_cons_of_ok _ _ holds, evalTrees]
    rfl
  have asserted : evalTree (hostWith settle) (inside (hostWith settle) (levels + 2)) joinTree frame
      (m.calling scope) = _ :=
    (evalTree_pushed (by rintro ⟨⟩) holding top).trans
      ((h.calling.pushed top.lowered).asserts settle (levels + 2))
  obtain ⟨ran, pushed⟩ := evalTree_shorthand_ok h.join (by omega) asserted top.lowered
  refine ⟨_, s₂, ran, pushed, found₂, ?_⟩
  rw [peer₂, peer₁]
  rfl

/-- `join` does nothing when nobody answers; it does not come to entering. -/
theorem joins_not {fault : Fault}
    (refused : m.common.world.reach bootstrap.host bootstrap.port = .error fault) :
    ∃ m' s', evalTree (hostWith settle) (inside (hostWith settle) (levels + 3))
      (.invoke ⟨["join"]⟩ []) scope m =
        .error (.failed fault) m' ∧
      m.Pushed [] m' ∧ m'.common.world.servers[i]? = some s' ∧ s'.peer = s.peer := by
  have inner : (m.calling scope).session.depth + 2 ≤ invocationLimit := by
    change m.session.depth + 1 + 2 ≤ invocationLimit
    omega
  obtain ⟨m', s', failed, pushed, found', peer⟩ :=
    h.calling.connects_not settle levels found inner small refused
  have unasserted : evalTree (hostWith settle) (inside (hostWith settle) (levels + 2)) joinTree
      m.common.store.frames.size (m.calling scope) = .error (.failed fault) m' :=
    evalTree_unmade (by nofun) (evalTree_unmade (by nofun) failed)
  obtain ⟨ran, pushed⟩ := evalTree_shorthand_error h.join (by omega) unasserted pushed
  exact ⟨_, s', ran, pushed, found', peer⟩

end Offered

/-! ## Texts -/

/-- Translates a text and runs its script. -/
def typed {σ : Type} (host : Host σ) (language : Script.Language) (text : String) : Run σ Unit := do
  match ← parsed language text with
  | .error fault => Run.fail fault
  | .ok t => runScript host t.bare

/-- Both languages write a call without arguments in the same way. -/
theorem parse_calling {ctx : Script.Context} {name : String} (spelled : (⟨[name]⟩ : Path).IsSpelled)
    (plain : name ≠ "true" ∧ name ≠ "false" ∧ name ≠ Script.Rho.keyword)
    (bound : ctx.isBound name = true) (language : Script.Language) (serial : Nat) :
    Script.parse language ctx (name ++ "()") serial =
      .ok (.sequence [.invoke ⟨[name]⟩ []], serial) := by
  have written : (⟨[name]⟩ : Path).render = name := String.intercalate_singleton
  have shape : (name ++ "()").toList = (⟨[name]⟩ : Path).render.toList ++ '(' :: [')'] := by
    rw [written, String.toList_append]
    rfl
  cases language with
  | rho =>
      have visible : Script.Rho.IsVisible ctx ⟨[name]⟩ := ⟨spelled, plain, bound⟩
      have statement : Script.Rho.Statement.AreWritten ctx [.run (Service.calling ⟨[name]⟩)] := by
        rw [Script.Rho.Statement.AreWritten, Script.Rho.Statement.IsWritten,
          Script.Rho.Statement.AreWritten]
        exact ⟨Service.written_calling visible, trivial⟩
      have lexes : Script.Lexes (name ++ "()").toList
          (Script.Rho.separated
            (Script.Rho.Statement.allTokens [.run (Service.calling ⟨[name]⟩)]) ++ [.finish]) := by
        rw [shape]
        exact Service.lexes_calling ⟨[name]⟩ spelled Script.Lexes.nil
      refine (parse_of_lexes statement lexes serial).1 ?_
      rw [Script.Rho.Statement.deepest, Script.Rho.Statement.deepest, Script.Rho.Statement.nesting,
        Service.calling, Script.Rho.Expression.nesting, Script.Rho.Expression.deepest]
      decide
  | pi =>
      have rendered : (Encoder.plain ctx.registry).render (.sequence [.invoke ⟨[name]⟩ []]) =
          name ++ "()" := by
        refine String.toList_inj.mp (Eq.trans ?_ shape.symm)
        simp [Encoder.render, Tree.sequence, Tree.invoke, Encoder.tree, Encoder.trees,
          Encoder.applied]
      have isScript : (Tree.sequence [.invoke ⟨[name]⟩ []]).IsScript := by
        simp only [Tree.sequence, Tree.invoke, Tree.IsScript, Tree.AreTerms, Tree.IsTerm, and_true]
        exact ⟨by simp, ⟨plain.1, plain.2.1⟩, spelled.names⟩
      have inScope : (Tree.sequence [.invoke ⟨[name]⟩ []]).InScope ctx [[]] :=
        Tree.inScope_of_bound _ fun root mem => by
          have isName : root = (⟨[name]⟩ : Path).root := by
            simpa [Tree.sequence, Tree.invoke, Tree.roots, Tree.rootsAll] using mem
          exact isName ▸ bound
      rw [← rendered]
      have shallow : (Tree.sequence [.invoke ⟨[name]⟩ []]).nesting ≤ Script.nestingLimit := by
        simp [Tree.sequence, Tree.invoke, Tree.nesting, Tree.deepest, Script.nestingLimit]
      exact parse_render_inScope _ _ isScript shallow inScope serial

/-- A call without arguments that is typed runs as it is. -/
theorem typed_calling {σ : Type} {host : Host σ} {m : Machine σ} {name : String} {v : Value}
    (spelled : (⟨[name]⟩ : Path).IsSpelled)
    (plain : name ≠ "true" ∧ name ≠ "false" ∧ name ≠ Script.Rho.keyword)
    (found : m.common.store.get? m.session.ambient name = some v) (language : Script.Language) :
    typed host language (name ++ "()") m = runScript host (.invoke ⟨[name]⟩ []) m := by
  have bound : m.common.store.contains m.session.ambient name = true := by
    rw [Store.contains_eq, found]
    rfl
  have translated : parsed language (name ++ "()") m =
      .ok (.ok (.sequence [.invoke ⟨[name]⟩ []])) m := by
    rw [parsed_eq, translation, parse_calling spelled plain bound]
    rfl
  exact Run.bind_of_ok translated

theorem runScript_of_ok {σ : Type} {host : Host σ} {t : Tree} {m m' : Machine σ}
    (ran : evalTree host (inside host m.levels) t m.session.ambient m = .ok () m') :
    runScript host t m = .ok () m' := by
  have ran : eval host t m = .ok () m' := ran
  rw [runScript, ran]

theorem runScript_of_error {σ : Type} {host : Host σ} {t : Tree} {fault : Fault} {m m' : Machine σ}
    (failed : evalTree host (inside host m.levels) t m.session.ambient m =
      .error (.failed fault) m') :
    runScript host t m = .error (.failed fault)
      ({ m' with session := { m'.session with depth := 0 } }.push (marker fault)) := by
  have failed : eval host t m = .error (.failed fault) m' := failed
  rw [runScript, failed]

namespace Offered

variable {bootstrap : Bootstrap} (h : Offered bootstrap i m.common.store m.session.ambient)
  (settle : Network → Network) (language : Script.Language) {s : Server}
  (found : m.common.world.servers[i]? = some s)

include h found

theorem typed_leave (room : m.session.depth + 2 ≤ invocationLimit) :
    ∃ m', typed (hostWith settle) language "leave()" m = .ok () m' ∧
      m'.session.stack = .bool s.peer.entered.isSome :: m.session.stack ∧
      m'.common.world.peer i = { s.peer with entered := none } := by
  obtain ⟨levels, enough⟩ : ∃ levels, m.levels = levels + 2 :=
    ⟨m.levels - 2, by unfold Machine.levels; omega⟩
  obtain ⟨m', s', left, pushed, found', peer⟩ := h.leaves settle levels found room
  rw [← enough] at left
  refine ⟨m', (typed_calling ⟨by decide, by decide⟩ (by decide) h.leave language).trans
    (runScript_of_ok left), ?_, (peer_of_found (n := m'.common.world) found').trans peer⟩
  rw [pushed.session]
  rfl

variable (room : m.session.depth + 3 ≤ invocationLimit) (small : bootstrap.port < 65536)

include room small

theorem typed_join (reached : m.common.world.reach bootstrap.host bootstrap.port = .ok target)
    (sound : s.peer.Sound) (few : s.peer.nextId < UInt64.size) :
    ∃ m' s', typed (hostWith settle) language "join()" m = .ok () m' ∧ m'.session = m.session ∧
      Offered bootstrap i m'.common.store m'.session.ambient ∧
      m'.common.world.servers[i]? = some s' ∧
      s'.peer = { s.peer.opened m.common.world.links.size (target.isServer i) with
        entered := some s.peer.nextId } := by
  obtain ⟨levels, enough⟩ : ∃ levels, m.levels = levels + 3 :=
    ⟨m.levels - 3, by unfold Machine.levels; omega⟩
  obtain ⟨m', s', joined, pushed, found', peer⟩ :=
    h.joins settle levels found room small reached sound few
  rw [← enough] at joined
  have session : m'.session = m.session := pushed.session
  have stays := h.pushed pushed
  rw [← session] at stays
  exact ⟨m', s', (typed_calling ⟨by decide, by decide⟩ (by decide) h.join language).trans
    (runScript_of_ok joined), session, stays, found', peer⟩

theorem typed_join_not {fault : Fault}
    (refused : m.common.world.reach bootstrap.host bootstrap.port = .error fault) :
    ∃ m', typed (hostWith settle) language "join()" m = .error (.failed fault) m' ∧
      m'.session.stack = marker fault :: m.session.stack ∧
      m'.common.world.peer i = s.peer := by
  obtain ⟨levels, enough⟩ : ∃ levels, m.levels = levels + 3 :=
    ⟨m.levels - 3, by unfold Machine.levels; omega⟩
  obtain ⟨m', s', failed, pushed, found', peer⟩ :=
    h.joins_not settle levels found room small refused
  rw [← enough] at failed
  refine ⟨_, (typed_calling ⟨by decide, by decide⟩ (by decide) h.join language).trans
    (runScript_of_error failed), ?_, (peer_of_found (n := m'.common.world) found').trans peer⟩
  change marker _ :: m'.session.stack = _
  rw [pushed.session]
  rfl

end Offered

/-- A new server offers its shorthands to every scope that sees its global one. -/
theorem offered_of_new {settings : Settings} {registry : Registry} {s₀ : Server}
    (small : settings.bootstrap.port < 65536) (made : Server.new settings registry i = .ok s₀)
    {store : Store} (kept : ∀ name ∈ ["peer", "assert", "connect", "enter", "join", "leave"],
      store.get? scope name = s₀.store.local? s₀.globals name) :
    Offered settings.bootstrap i store scope := by
  obtain ⟨globals, -, -, -, -, serial, folded⟩ := Server.store_of_new made
  have root : Service.IsRoot (Service.globalsOf i) :=
    ⟨(Service.globalsOf_global i).nonempty, (Service.globalsOf_global i).parent⟩
  rw [root.bind_shorthands (by rfl) (by rfl) small] at folded
  have store₀ : s₀.store = Service.withShorthands (Service.globalsOf i) settings.bootstrap :=
    (congrArg Prod.fst (Except.ok.inj folded)).symm
  have connected :=
    root.set "connect" (.closure [] (.sequence [(Service.connecting settings.bootstrap).tree]) none)
  have entered := connected.set "enter"
    (.closure [] (.sequence [(Service.calling ⟨["peer", "Enter"]⟩).tree]) none)
  have joined := entered.set "join" (.closure [] (.sequence [Service.joining.tree]) none)
  simp only [List.forall_mem_cons, globals, store₀, Service.withShorthands, joined.local?_set,
    entered.local?_set, connected.local?_set, root.local?_set] at kept
  obtain ⟨peer, assert, connect, enter, join, leave, -⟩ := kept
  exact ⟨peer, assert, connect, enter, join, leave⟩

/-- **Joining is all or nothing.**  In a session over the global scope of a server, with the names
of the shorthands as they were bound and room for three more invocations, `join()` asks for the
configured address.  When the attempt comes to nothing, whatever the reason, this is its fault, and
connections, events and the entered remote are as they were, as is the stack below the marker.
Otherwise the session is as it was, there is one more outbound connection, whose number is above all
that were ever given, and it is entered; a server that has reached itself has accepted the
connection as well.  Then `leave()` gives true and keeps the connection. -/
theorem join_all_or_nothing (settle : Network → Network) (language : Script.Language)
    {settings : Settings} {registry : Registry} {s₀ : Server}
    (small : settings.bootstrap.port < 65536) (made : Server.new settings registry i = .ok s₀)
    (m : Machine Network) (kept : ∀ name ∈ ["peer", "assert", "connect", "enter", "join", "leave"],
      m.common.store.get? m.session.ambient name = s₀.store.local? s₀.globals name)
    (room : m.session.depth + 3 ≤ invocationLimit) (there : i < m.common.world.servers.size)
    (reachable : ∃ limit accesses x, (Traffic.start limit).run accesses = some x ∧
      x.table = m.common.world.peer i)
    (few : (m.common.world.peer i).nextId < UInt64.size) :
    match m.common.world.reach settings.bootstrap.host settings.bootstrap.port with
    | .error fault =>
        ∃ m', typed (hostWith settle) language "join()" m = .error (.failed fault) m' ∧
          m'.session.stack = marker fault :: m.session.stack ∧
          m'.common.world.peer i = m.common.world.peer i
    | .ok target =>
        ∃ (m' : Machine Network) (entry : Peer.Entry) (accepted : List (ConnectionId × Peer.Entry)),
          typed (hostWith settle) language "join()" m = .ok () m' ∧ m'.session = m.session ∧
          (m'.common.world.peer i).entries =
            (m.common.world.peer i).entries ++ ((m.common.world.peer i).nextId, entry) :: accepted ∧
          entry.client.direction = .outbound ∧ entry.remote.isSome = true ∧
          accepted.length = (if target.isServer i then 1 else 0) ∧
          (∀ p ∈ accepted, p.2.remote = none) ∧
          (∀ id ∈ (m.common.world.peer i).made, id < (m.common.world.peer i).nextId) ∧
          (m'.common.world.peer i).entered = some (m.common.world.peer i).nextId ∧
          ∃ m'', typed (hostWith settle) language "leave()" m' = .ok () m'' ∧
            m''.session.stack = .bool true :: m.session.stack ∧
            m''.common.world.peer i = { m'.common.world.peer i with entered := none } := by
  obtain ⟨limit, accesses, x, ran, table⟩ := reachable
  have sound : (m.common.world.peer i).Sound := table ▸ Traffic.run_sound (.new limit) ran
  obtain ⟨s, found⟩ : ∃ s, m.common.world.servers[i]? = some s :=
    ⟨_, Array.getElem?_eq_getElem there⟩
  rw [peer_of_found found] at sound few ⊢
  have offered := offered_of_new small made kept
  split
  · rename_i fault refused
    exact offered.typed_join_not settle language found room small refused
  · rename_i target reached
    obtain ⟨m', s', joined, session, stays, found', peer⟩ :=
      offered.typed_join settle language found room small reached sound few
    have table' : m'.common.world.peer i =
        { s.peer.opened m.common.world.links.size (target.isServer i) with
        entered := some s.peer.nextId } := (peer_of_found (n := m'.common.world) found').trans peer
    have filed : (m'.common.world.peer i).entries = _ :=
      (congrArg Table.entries table').trans
        (s.peer.entries_opened m.common.world.links.size (target.isServer i))
    have entered : (m'.common.world.peer i).entered = some s.peer.nextId :=
      congrArg Table.entered table'
    obtain ⟨m'', left, stack, cleared⟩ :=
      stays.typed_leave settle language found' (by rw [session]; omega)
    have gave : s'.peer.entered.isSome = true := by rw [peer]; rfl
    rw [gave, session] at stack
    rw [← peer_of_found (n := m'.common.world) found'] at cleared
    refine ⟨m', _, _, joined, session, filed, rfl, rfl, ?_, ?_, ?_, entered, m'',
      left, stack, cleared⟩
    · cases target.isServer i <;> rfl
    · cases target.isServer i
      · exact nofun
      · exact List.forall_mem_singleton.mpr rfl
    · exact fun id mem => sound.lt_nextId mem

/-! ## A server by itself -/

/-- A session over the global scope of a server.  There is a remote at the default address, which is
reached when the network is up. -/
def joining (isUp : Bool) (s : Server) : Machine Network :=
  ⟨.new .standard 0, { Common.new { empty isUp with servers := #[s], remotes := [(9999, [])] }
    with store := s.store }⟩

/-- A new server has no connections and does not listen, and its global scope is the outermost
one. -/
theorem loopback_reads {s : Server} (made : Server.new .loopback .standard 0 = .ok s) :
    s.peer = .new 64 ∧ s.listening = [] ∧ s.store.parent? 0 = none := by
  have reads : (Server.new .loopback .standard 0).map
      (fun s => (s.peer, s.listening, s.store.parent? 0)) =
      .ok (.new 64, [], none) := by cbv
  rw [made] at reads
  have reads := Except.ok.inj reads
  exact ⟨congrArg Prod.fst reads, congrArg (·.2.1) reads, congrArg (·.2.2) reads⟩

/-- Without a network nobody is reached; with one the remote is entered, and left again. -/
theorem join_all_or_nothing_alone : ∃ s, Server.new .loopback .standard 0 = .ok s ∧
    (∃ m', typed (hostWith id) .pi "join()" (joining false s) =
        .error (.failed (.transport
          "Failed to connect to 127.0.0.1:9999: Network is unreachable (os error 101)")) m' ∧
      m'.common.world.peer 0 = s.peer) ∧
    ∃ m' m'', typed (hostWith id) .pi "join()" (joining true s) = .ok () m' ∧
      (m'.common.world.peer 0).entered = some 1 ∧ typed
    (hostWith id) .pi "leave()" m' = .ok () m'' ∧
      m''.session.stack = [.bool true] ∧ (m''.common.world.peer 0).entered = none := by
  obtain ⟨s, made⟩ := new_loopback
  obtain ⟨table, unheard, root⟩ := loopback_reads made
  have kept : ∀ isUp, ∀ name ∈ ["peer", "assert", "connect", "enter", "join", "leave"],
      (joining isUp s).common.store.get? (joining isUp s).session.ambient name =
        s.store.local? s.globals name := fun isUp name _ => by
    rw [(Server.store_of_new made).1]
    exact (Store.get?_of_chain (Store.chain_of_none root)).trans List.findSome?_singleton
  have few : ∀ isUp, ((joining isUp s).common.world.peer 0).nextId < UInt64.size := fun isUp => by
    change s.peer.nextId < _
    rw [table]
    decide
  have address : address "127.0.0.1" 9999 = "127.0.0.1:9999" := by cbv
  have refused : (joining false s).common.world.reach "127.0.0.1" 9999 = .error (.transport
      "Failed to connect to 127.0.0.1:9999: Network is unreachable (os error 101)") := by
    rw [reach, address]
    rfl
  have reached : (joining true s).common.world.reach "127.0.0.1" 9999 = .ok (.remote 9999 []) := by
    have alone : (joining true s).common.world.waiting = [(9999, .remote 9999 [])] := by
      have only : (joining true s).common.world.servers.toList = [s] := rfl
      rw [waiting, Array.toList_map, only, List.map_singleton, unheard]
      rfl
    have isLocal : Surroundings.isLocal "127.0.0.1" = true := by cbv
    refine reach_loopback rfl isLocal ?_
    rw [alone]
    rfl
  have joined : ∀ isUp, _ :=
    fun isUp => join_all_or_nothing id .pi (i := 0) (by decide) made (joining isUp s)
    (kept isUp) (Nat.le_of_ble_eq_true rfl) Nat.zero_lt_one ⟨64, [], _, rfl, table.symm⟩ (few isUp)
  refine ⟨s, made, ?_, ?_⟩
  · have failed := joined false
    rw [show (joining false s).common.world.reach Settings.loopback.bootstrap.host
      Settings.loopback.bootstrap.port = _ from refused] at failed
    obtain ⟨m', failed, -, peer⟩ := failed
    exact ⟨m', failed, peer⟩
  · have entered := joined true
    rw [show (joining true s).common.world.reach Settings.loopback.bootstrap.host
      Settings.loopback.bootstrap.port = _ from reached] at entered
    obtain ⟨m', -, -, ran, -, -, -, -, -, -, -, entered, m'', left, stack, peer⟩ := entered
    refine ⟨m', m'', ran, entered.trans ?_, left, stack, congrArg Table.entered peer⟩
    change some s.peer.nextId = _
    rw [table]
    rfl

end Network

end PeerScript
