import PeerScript.Proofs.Unbound.Networks

/-!
# Running in a network

A session that runs counts on the network that it shares with others being settled, and on nobody
else being in its room: this is its `outlook`.  The objects `peer` and `server` leave it that way,
also while a request waits, since the others write in rooms of their own.  So every step of a
network keeps it settled.
-/

set_option autoImplicit false

namespace PeerScript

/-! ## Arguments that are refused -/

namespace Service

variable {method name : String} {args : List Value} {v : Value} {fault : Fault}

theorem idOfValue_refuses (failed : idOfValue method v = .error fault) : fault ≠ .unbound name := by
  unfold idOfValue at failed
  split at failed
  · split at failed <;> cases failed
    exact nofun
  · cases failed
    exact nofun

/-- Arguments that do not fit are no missing names. -/
theorem PeerCall.refuses (failed : PeerCall.ofArgs method args = .error fault) (name : String) :
    fault ≠ .unbound name := by
  have mapped : ∀ {v : Value} {make : Peer.ConnectionId → PeerCall},
      (idOfValue method v).map make = .error fault → fault ≠ .unbound name := by
    intro v make failed
    cases known : idOfValue method v with
    | ok id =>
        rw [known] at failed
        exact nomatch failed
    | error other =>
        rw [known] at failed
        cases failed
        exact idOfValue_refuses known
  unfold PeerCall.ofArgs wrongCount at failed
  split at failed <;> repeat' split at failed
  all_goals first
    | exact mapped failed
    | (cases failed <;> exact nofun)

theorem ServerCall.refuses (failed : ServerCall.ofArgs method args = .error fault) (name : String) :
    fault ≠ .unbound name := by
  unfold ServerCall.ofArgs wrongCount at failed
  repeat' split at failed
  all_goals (cases failed <;> exact nofun)

end Service

namespace Network

open Service (Server Seat PeerCall ServerCall peerName serverName)
open Peer (ConnectionId)
open Wire (Bytes Outcome)

variable {n n' : Network} {i : Nat} {seat : Seat} {s : Server} {session : Session} {a : Account}
  {room : FrameId} {late : String → Prop}

/-! ## What a running session shares -/

theorem withShared_of_world {c d : Common Network} (world : d.world = c.world) :
    withShared i d = (withShared i c).modifyServer i (·.reclaim d) := by
  rw [withShared, withShared, modifyServer_modifyServer, world]
  rfl

theorem withShared_sharedIn {c : Common Network} (found : n.servers[i]? = some s) :
    withShared i (sharedIn i c n) = n := by
  rw [sharedIn, found]
  refine modifyServer_eq_self fun t there => ?_
  obtain rfl : s = t := Option.some.inj (found.symm.trans there)
  rfl

theorem withShared_machineOf (found : n.servers[i]? = some s) :
    withShared i (n.machineOf i s seat session).common = n.modifyServer i (·.vacated seat) := by
  rw [withShared, world_machineOf, modifyServer_modifyServer]
  refine modifyServer_congr fun t there => ?_
  obtain rfl : s = t := Option.some.inj (found.symm.trans there)
  have store : (n.machineOf i s seat session).common.store = s.store := store_machineOf
  have serial : (n.machineOf i s seat session).common.serial = s.serial := Server.common_serial _ _
  have printed : (n.machineOf i s seat session).common.printed = s.printed :=
    Server.common_printed _ _
  rw [Server.reclaim, store, serial, printed]
  rfl

theorem seatedAgain_eq (m : Machine Network) : seatedAgain i seat m =
    (withShared i m.common).modifyServer i fun s =>
      { s with idle := Association.put seat m.session s.idle } := by
  rw [withShared, modifyServer_modifyServer]
  rfl

/-! ## The room of a session that runs -/

/-- The network is settled, and nobody is in the room. -/
structure Hosts (a : Account) (i : Nat) (room : FrameId) (n : Network) :
    Prop extends n.Settled a where
  vacant : ∃ s, n.servers[i]? = some s ∧ s.store.IsRoom room ∧
    ∀ entry ∈ s.idle, entry.2.ambient ≠ room

/-- What is known of a server that a running session shares. -/
theorem Hosts.shared {c : Common Network} (h : (withShared i c).Hosts a i room) :
    ∃ s, (withShared i c).servers[i]? = some s ∧ s.store = c.store ∧ s.serial = c.serial ∧
    s.IsOrderly i ∧ s.store.IsRoom room ∧ ∀ entry ∈ s.idle, entry.2.ambient ≠ room := by
  obtain ⟨s, found, isRoom, vacant⟩ := h.vacant
  obtain ⟨w, there⟩ := server_of_size (n := c.world) Array.size_modify found
  have same : s = w.reclaim c := by
    rw [withShared, servers_modifyServer there] at found
    exact (Option.some.inj found).symm
  exact ⟨s, found, congrArg Server.store same, congrArg Server.serial same, h.servers i s found,
    isRoom, vacant⟩

/-- What a session in the room can count on when the given names are late. -/
def outlook (a : Account) (i : Nat) (room : FrameId) (late : String → Prop) : Outlook Network where
  ambient := room
  late := late
  own := (Kit.ofServer i).object
  shared c := (withShared i c).Hosts a i room
  goes c d hosts spares within serial world := by
    obtain ⟨s, found, store, same, orderly, isRoom, vacant⟩ := hosts.shared
    rw [← store] at spares
    obtain ⟨written, spared⟩ : (s.reclaim d).IsOrderly i ∧ _ :=
      orderly.written spares (fun f above => ⟨room, isRoom, above, vacant⟩)
        (within (store ▸ orderly.owns.bound)) rfl rfl
    have here : ∀ t, (withShared i c).servers[i]? = some t → t = s := fun t there =>
      Option.some.inj (there.symm.trans found)
    have alone : ∀ own, s.LeavesAlone own (s.reclaim d) := fun _ =>
      { settings := rfl
        registry := rfl
        globals := rfl
        extends_ := spares.toExtends
        root := spares.bindings 0 orderly.nonempty fun above =>
          isRoom.not_above_root orderly.top above
        serial := same ▸ serial
        idle := fun _ _ => rfl
        spared := fun _ _ _ idle => spared _ (mem_of_idle idle) }
    rw [withShared_of_world world]
    refine ⟨hosts.modifyServer (fun t there => ?_) (fun t there seat session idle => ?_)
      (fun t _ _ session idle => ⟨session, idle⟩)
      (hosts.holds.incident (.server (fun _ _ => rfl) fun t there => here t there ▸ alone _)),
      s.reclaim d,
      servers_modifyServer found _, isRoom.extends spares.toExtends, vacant⟩
    · rw [here t there]
      exact written
    · rw [here t there] at idle ⊢
      exact .inl ⟨idle, spared _ (mem_of_idle idle)⟩

/-! ## The objects of a server -/

section Methods

variable {m : Machine Network} (honours : m.Honours (outlook a i room late))

include honours

/-- The network has gone on, and the frames of the session are as they were. -/
theorem honours_proceeds (settled : n'.Settled a)
    (proceeds : (withShared i m.common).Proceeds (fun _ => True) n') :
    m.common.store.Spares (fun f => ¬ m.Keeps f) (sharedIn i m.whole n').store ∧
      (outlook a i room late).shared (sharedIn i m.whole n') := by
  obtain ⟨s, found, store, -, orderly, isRoom, vacant⟩ := honours.shared.shared
  obtain ⟨s', found'⟩ := server_of_size (n := n') proceeds.size.symm found
  have becomes := proceeds.server i s s' trivial found found'
  constructor
  · rw [sharedIn, found', ← store]
    refine becomes.store.mono ?_
    rintro f - ⟨entry, mem, rfl⟩ kept
    obtain ⟨o, owns, above⟩ := Store.alive_iff.mp kept
    rw [← store] at above
    exact (orderly.rooms entry mem).apart orderly.top isRoom (vacant entry mem) above
      (store ▸ honours.rooted o owns)
  · change (withShared i (sharedIn i m.whole n')).Hosts a i room
    rw [withShared_sharedIn found']
    refine ⟨settled, s', found', isRoom.extends becomes.store.toExtends, fun entry mem same => ?_⟩
    rcases becomes.seats room ⟨entry, mem, same⟩ with ⟨other, mem', same'⟩ | new
    · exact vacant other mem' same'
    · exact Nat.not_lt_of_le new isRoom.lt

theorem honours_acting {α : Type} {act : Act α}
    (settles : Act.Ended a (act (withShared i m.whole))) (idles : act.Idles)
    {next : α → Method Network}
    (rest : ∀ x (m' : Machine Network), m'.Honours (outlook a i room late) →
      (next x).Honours (outlook a i room late) m') :
    (acting i act next).Honours (outlook a i room late) m := by
  have hosts : (withShared i m.whole).Hosts a i room := honours.shared
  have went := idles (withShared i m.whole)
  unfold acting Method.Honours
  dsimp only
  cases ran : act (withShared i m.whole) with
  | ok x n' =>
      rw [ran] at settles went
      obtain ⟨spares, shared⟩ := honours_proceeds honours settles (went.proceeds hosts.owned)
      exact ⟨spares, shared, rest x _ (honours.changed spares shared).1⟩
  | error fault n' =>
      rw [ran] at settles went
      obtain ⟨spares, shared⟩ := honours_proceeds honours settles.1 (went.proceeds hosts.owned)
      exact ⟨spares, shared, settles.2⟩

variable {settle : Network → Network} (settles : ∀ n : Network, n.Settled a → (settle n).Settled a)
  (proceeds : ∀ n : Network, n.Owned → n.Proceeds (fun _ => True) (settle n))

include settles proceeds

/-- While a session waits the network goes on. -/
theorem honours_whileWaiting :
    m.common.store.Spares (fun f => ¬ m.Keeps f) (whileWaiting settle i m.session m.whole).store ∧
      (outlook a i room late).shared (whileWaiting settle i m.session m.whole) := by
  have hosts : (withShared i m.common).Hosts a i room := honours.shared
  unfold whileWaiting
  split
  · exact ⟨.refl _ _, hosts⟩
  · have awaiting : ((withShared i m.common).modifyServer i (·.awaiting m.session)).Settled a :=
      hosts.aside (fun _ => rfl) (fun _ => rfl) (fun _ => rfl) (fun _ => rfl) (fun _ => rfl)
        (fun _ => rfl) fun _ => rfl
    have settled := settles _ awaiting
    have before : (withShared i m.common).Idles
        ((withShared i m.common).modifyServer i (·.awaiting m.session)) :=
      .modified (fun _ => rfl) fun _ => List.Subset.refl _
    have proceeded := (before.proceeds hosts.owned).trans (proceeds _ awaiting.owned)
    refine honours_proceeds honours (settled.aside ?_ ?_ ?_ ?_ ?_ ?_ ?_)
      (proceeded.idly (.modified ?_ ?_))
    all_goals first
      | exact fun _ => rfl
      | exact fun _ => List.Subset.refl _

theorem honours_peerMethod (call : PeerCall) :
    (peerMethod settle i call).Honours (outlook a i room late) m := by
  have hosts : (withShared i m.whole).Hosts a i room := honours.shared
  have settled := hosts.toSettled
  cases call with
  | connect host port =>
      obtain ⟨s, found, -⟩ := hosts.vacant
      have there := (Array.getElem?_eq_some_iff.mp found).1
      have connects := settled.connect (settled.holds.incident (.connect host port there))
      exact honours_acting honours connects (.connect i host port)
        fun id _ _ => .int _
  | enter id =>
    exact honours_acting honours (Act.Settles.enter i id _ settled)
      (.enter i id) fun id _ _ => .int _
  | leave =>
      change (acting i (Network.leave i) fun left => .give (.bool left.isSome)).Honours _ m
      exact honours_acting honours (Act.Settles.leave i _ settled) (.leave i) fun _ _ _ => .bool _
  | execute text =>
      exact honours_acting honours (Act.Settles.sending i none text false _ settled)
        (.sending i none text false) fun _ _ _ => trivial
  | executeTree t =>
      exact honours_acting honours (Act.Settles.sending i none _ false _ settled)
        (.sending i none _ false) fun _ _ _ => trivial
  | clients =>
      exact Value.IsData.list
        ((m.common.world.peer i).clients.map fun client => Service.valueOfId client.id)
  | request id text =>
      refine honours_acting honours (Act.Settles.sending i id text true _ settled)
        (.sending i id text true) fun ticket m' honours' => ?_
      obtain ⟨spares, shared⟩ := honours_whileWaiting honours' settles proceeds
      refine ⟨spares, shared, ?_⟩
      have hosts : (withShared i (whileWaiting settle i m'.session m'.whole)).Hosts a i room :=
        shared
      unfold Method.Honours
      dsimp only
      split
      · exact Value.IsData.str _
      · rename_i fault ended
        obtain ⟨o, found, failed⟩ := Option.map_eq_some_iff.mp ended
        intro name same
        exact hosts.outcomes o (List.mem_of_find?_eq_some found) name (same ▸ failed)
      · trivial

end Methods

/-- The objects of a server leave its sessions to themselves. -/
theorem hostWith_honours {settle : Network → Network}
    (settles : ∀ n : Network, n.Settled a → (settle n).Settled a)
    (proceeds : ∀ n : Network, n.Owned → n.Proceeds (fun _ => True) (settle n)) :
    (hostWith settle).Honours (outlook a i room late) where
  member world o name v _ found := by
    have found : (if o.typeName = peerName ∧ name = "Entered" then
        some (((world.peer o.serial).entered.map Service.valueOfId).getD (.bool false)) else none) =
      some v := found
    split at found
    · cases found
      cases (world.peer o.serial).entered with
      | none => exact .bool _
      | some id => exact .int _
    · exact nomatch found
  method o name args m own honours := by
    have number : o.serial = i := by
      rcases own with rfl | rfl <;> rfl
    subst number
    change (if o.typeName = peerName then _ else _ : Method Network).Honours _ m
    split
    · split
      · exact honours_peerMethod honours settles proceeds _
      · rename_i fault failed
        exact Service.PeerCall.refuses failed
    · split
      · rename_i call _
        cases call with
        | port =>
            have hosts : (withShared o.serial m.whole).Hosts a o.serial room := honours.shared
            exact honours_acting honours (Act.Settles.boundPort _ _ hosts.toSettled) (.boundPort _)
              fun _ _ _ => .int _
        | stop =>
            have hosts : (withShared o.serial m.common).Hosts a o.serial room := honours.shared
            refine ⟨.refl _ _, ?_, trivial⟩
            obtain ⟨s, found, isRoom, vacant⟩ := hosts.vacant
            have stopped : ((withShared o.serial m.common).modifyServer o.serial Server.stop).Hosts
                a o.serial room :=
              ⟨hosts.aside (fun _ => rfl) (fun _ => rfl) (fun _ => rfl) (fun _ => rfl)
                (fun _ => rfl) (fun _ => rfl) fun _ => rfl, s.stop,
                servers_modifyServer found _, isRoom, vacant⟩
            rw [withShared, modifyServer_modifyServer] at stopped
            change (Network.modifyServer
              (Network.modifyServer m.common.world o.serial Server.stop) o.serial
              (·.reclaim m.common)).Hosts a o.serial room
            rw [modifyServer_modifyServer]
            exact stopped
      · rename_i fault failed
        exact Service.ServerCall.refuses failed

end Network

end PeerScript
