import PeerScript.Proofs.Incidents.Ledgers
import PeerScript.Proofs.Locality.Networks
import PeerScript.Proofs.Unbound.Runs

/-!
# The frames of a session belong to it

The scope of a session lies right below the global scope of its server, and all frames that its
scripts make lie below its scope.  No two sessions have the same scope, so their frames are apart,
and whatever happens in a network, a session finds its frames as it has left them.

`Sound` says this of a network, together with what is needed to keep it: every session that does not
run stands, the global scope offers functions that find their names there, and a request that fails
does so because of its connection.  All that happens in a network keeps this.  An `Account` is what
else is to be known of the sessions; it is kept on the same way, and so is a ledger of what is known
of the network apart from them.  Some consoles may be known not to run meanwhile.
-/

set_option autoImplicit false

namespace PeerScript

open Service (Server Seat PeerCall ServerCall peerName serverName)
open Peer (ConnectionId)
open Wire (Bytes Outcome)

/-! ## Scopes -/

namespace Store

variable {s t : Store} {f g h : FrameId} {v : Value}

/-- The frame is right below the global scope. -/
structure IsRoom (s : Store) (f : FrameId) : Prop where
  parent : s.parent? f = some 0
  pos : 0 < f

theorem IsRoom.lt (room : s.IsRoom f) : f < s.frames.size := lt_of_parent? room.parent

theorem IsRoom.extends (extend : s.Extends t) (room : s.IsRoom f) : t.IsRoom f :=
  ⟨(extend.parent f room.lt).trans room.parent, room.pos⟩

/-- Of two frames above a frame, one is above the other. -/
theorem chain_total (above : g ∈ s.chain f) (above' : h ∈ s.chain f) :
    g ∈ s.chain h ∨ h ∈ s.chain g := by
  induction f using Nat.strongRecOn with
  | ind f ih =>
      rcases s.chain_cases f with same | ⟨p, -, less, same⟩
      · rw [same, List.mem_singleton] at above above'
        rw [above, above']
        exact .inl (s.mem_chain_self f)
      · by_cases first : g = f
        · exact .inr (first ▸ above')
        by_cases second : h = f
        · exact .inl (second ▸ above)
        rw [same] at above above'
        exact ih p less ((List.mem_cons.mp above).resolve_left first)
          ((List.mem_cons.mp above').resolve_left second)

theorem IsRoom.chain (top : s.parent? 0 = none) (room : s.IsRoom f) : s.chain f = [f, 0] := by
  rw [chain_of_some room.parent room.pos, chain_of_none top]

/-- The global scope is not below a room. -/
theorem IsRoom.not_above_root (top : s.parent? 0 = none) (room : s.IsRoom f) : f ∉ s.chain 0 := by
  rw [chain_of_none top, List.mem_singleton]
  exact Nat.ne_of_gt room.pos

/-- No frame is below two rooms. -/
theorem IsRoom.apart (top : s.parent? 0 = none) (room : s.IsRoom g)
    (room' : s.IsRoom h) (ne : g ≠ h) (above : g ∈ s.chain f) : h ∉ s.chain f := by
  have away : ∀ {a b : FrameId}, s.IsRoom a → s.IsRoom b → a ≠ b → a ∉ s.chain b := by
    intro a b first second other mem
    rw [second.chain top, List.mem_cons, List.mem_singleton] at mem
    exact mem.elim other (Nat.ne_of_gt first.pos)
  intro above'
  rcases chain_total above above' with mem | mem
  · exact away room room' ne mem
  · exact away room' room ne.symm mem

/-- A function of the global scope has no home and finds its names there. -/
structure Offers (s : Store) (v : Value) : Prop where
  homeless : ∀ params body f, v ≠ .closure params body (some f)
  source : ∀ params body home, v = .closure params body home → body.IsSource
  free : ∀ name ∈ v.free, s.contains 0 name = true

end Store

/-! ## Sessions that do not run -/

namespace Session

variable {session : Session} {s t : Store} {i : Nat} {late : String → Prop}
  {writes : FrameId → Prop}

/-- Where a session of a server stands. -/
def footing (session : Session) (i : Nat) (late : String → Prop) : Footing :=
  ⟨session.ambient, late, (Kit.ofServer i).object⟩

/-- The session stands in the frames, whatever else is shared. -/
def Rests (session : Session) (i : Nat) (late : String → Prop) (s : Store) : Prop :=
  ∀ c : Common Network, c.store = s → (Machine.mk session c).Stands (session.footing i late)

theorem Rests.of_stands {c : Common Network}
    (stands : (Machine.mk session c).Stands (session.footing i late)) :
    session.Rests i late c.store :=
  fun _ same => stands.narrowed rfl rfl rfl (List.Subset.refl _) same

theorem Rests.spared (rests : session.Rests i late s) (spared : session.Spared s t) :
    session.Rests i late t := by
  rintro c rfl
  exact (rests { c with store := s } rfl).spared spared

theorem Rests.mono {less : String → Prop} (rests : session.Rests i less s)
    (more : ∀ name, less name → late name) :
    session.Rests i late s :=
  fun c same => (rests c same).mono rfl rfl more

/-- Who writes below another room spares the frames of the session. -/
theorem Rests.spared_of_rooms (rests : session.Rests i late s) (top : s.parent? 0 = none)
    (room : s.IsRoom session.ambient) (spares : s.Spares writes t)
    (elsewhere : ∀ f, writes f → ∃ g, s.IsRoom g ∧ g ≠ session.ambient ∧ g ∈ s.chain f) :
    session.Spared s t := by
  refine spares.mono fun f _ may kept => ?_
  obtain ⟨g, other, ne, above⟩ := elsewhere f may
  obtain ⟨o, owns, mem⟩ := Store.alive_iff.mp kept
  have root : session.ambient ∈ s.chain o :=
    (rests { (Common.new (Network.empty true)) with store := s } rfl).rooted o owns
  exact Store.IsRoom.apart top other room ne ((Store.chain_subset mem).2 above) root

/-- A new session stands in its room, whatever the global scope offers. -/
theorem rests_new (registry : Registry) {room : FrameId} (top : s.parent? 0 = none)
    (isRoom : s.IsRoom room) (blank : ∀ name, s.local? room name = none)
    (within : s.Within (.ofServer i)) (offers : ∀ name v, s.local? 0 name = some v → s.Offers v) :
    (Session.new registry room).Rests i late s := by
  rintro c rfl
  have chain := isRoom.chain top
  refine ⟨rfl, ⟨fun o mem => ?_, nofun, fun f kept name v _ found => ?_⟩, fun o mem => ?_⟩
  · obtain rfl : o = room := List.mem_singleton.mp mem
    exact isRoom.lt
  · obtain ⟨o, mem, above⟩ := Store.alive_iff.mp kept
    obtain rfl : o = room := List.mem_singleton.mp mem
    rw [chain, List.mem_cons, List.mem_singleton] at above
    change c.store.local? f name = some v at found
    rcases above with rfl | rfl
    · exact nomatch (blank name).symm.trans found
    · have offer := offers name v found
      refine ⟨Machine.houses_plain offer.homeless, within 0 name v found, offer.source,
        fun other mem => ?_⟩
      refine .inr (.inl (Store.contains_of_chain ?_ (offer.free other mem)))
      change (0 : FrameId) ∈ c.store.chain _
      rw [footing, Session.new, chain]
      exact List.mem_cons_of_mem _ (List.mem_singleton_self _)
  · obtain rfl : o = room := List.mem_singleton.mp mem
    exact Store.mem_chain_self _ _

end Session

/-! ## Servers -/

namespace Service.Server

variable {i : Nat} {s s' : Server} {seat : Seat} {session : Session} {late : String → Prop}

/-- The sessions of a server that do not run stand, each in a scope of its own. -/
structure IsOrderly (i : Nat) (s : Server) : Prop where
  owns : s.Owns i
  globals : s.globals = 0
  nonempty : 0 < s.store.frames.size
  top : s.store.parent? 0 = none
  offers : ∀ name v, s.store.local? 0 name = some v → s.store.Offers v
  rooms : ∀ entry ∈ s.idle, s.store.IsRoom entry.2.ambient
  apart : ∀ entry ∈ s.idle, ∀ other ∈ s.idle, entry.2.ambient = other.2.ambient → entry.1 = other.1
  rests : ∀ entry ∈ s.idle, entry.2.Rests i (fun _ => True) s.store

namespace IsOrderly

theorem of_idle (h : s.IsOrderly i) (store : s'.store = s.store) (globals : s'.globals = s.globals)
    (idle : s'.idle ⊆ s.idle) : s'.IsOrderly i where
  owns := ⟨store ▸ h.owns.bound, fun entry mem => h.owns.idle entry (idle mem)⟩
  globals := globals.trans h.globals
  nonempty := store ▸ h.nonempty
  top := store ▸ h.top
  offers := store ▸ h.offers
  rooms entry mem := store ▸ h.rooms entry (idle mem)
  apart entry mem other mem' := h.apart entry (idle mem) other (idle mem')
  rests entry mem := store ▸ h.rests entry (idle mem)

/-- Names have been bound in frames below rooms in which no session is, and frames have been
made. -/
theorem written (h : s.IsOrderly i) {writes : FrameId → Prop}
    (spares : s.store.Spares writes s'.store)
    (elsewhere : ∀ f, writes f → ∃ room, s.store.IsRoom room ∧ room ∈ s.store.chain f ∧
      ∀ entry ∈ s.idle, entry.2.ambient ≠ room)
    (within : s'.store.Within (.ofServer i)) (globals : s'.globals = s.globals)
    (idle : s'.idle = s.idle) :
    s'.IsOrderly i ∧ ∀ entry ∈ s.idle, entry.2.Spared s.store s'.store := by
  have spared : ∀ entry ∈ s.idle, entry.2.Spared s.store s'.store := fun entry mem =>
    (h.rests entry mem).spared_of_rooms h.top (h.rooms entry mem) spares fun f may => by
      obtain ⟨room, isRoom, above, vacant⟩ := elsewhere f may
      exact ⟨room, isRoom, (vacant entry mem).symm, above⟩
  have outside : ∀ g ∈ s.store.chain 0, ¬ writes g := by
    intro g above may
    obtain ⟨room, isRoom, below, -⟩ := elsewhere g may
    exact isRoom.not_above_root h.top ((Store.chain_subset above).2 below)
  refine ⟨?_, spared⟩
  exact {
    owns := ⟨within, idle ▸ h.owns.idle⟩
    globals := globals.trans h.globals
    nonempty := Nat.lt_of_lt_of_le h.nonempty spares.size
    top := (spares.parent 0 h.nonempty).trans h.top
    offers := fun name v found => by
      rw [spares.local?_eq h.nonempty (outside 0 (Store.mem_chain_self _ _))] at found
      have offer := h.offers name v found
      exact ⟨offer.homeless, offer.source,
        fun name mem => spares.contains outside (offer.free name mem)⟩
    rooms := fun entry mem => (h.rooms entry (idle ▸ mem)).extends spares.toExtends
    apart := idle ▸ h.apart
    rests := fun entry mem => (h.rests entry (idle ▸ mem)).spared (spared entry (idle ▸ mem)) }

/-- A session comes back to a seat in its room, in which nobody else is. -/
theorem put (h : s.IsOrderly i) (room : s.store.IsRoom session.ambient)
    (vacant : ∀ entry ∈ s.idle, entry.2.ambient ≠ session.ambient)
    (rests : session.Rests i (fun _ => True) s.store)
    (within : ∀ v ∈ session.stack, v.Within (.ofServer i)) :
    Server.IsOrderly i { s with idle := Association.put seat session s.idle } where
  owns := ⟨h.owns.bound, List.forall_mem_cons.mpr
    ⟨within, fun entry mem => h.owns.idle entry (List.mem_of_mem_filter mem)⟩⟩
  globals := h.globals
  nonempty := h.nonempty
  top := h.top
  offers := h.offers
  rooms :=
    List.forall_mem_cons.mpr ⟨room, fun entry mem => h.rooms entry (List.mem_of_mem_filter mem)⟩
  apart := by
    intro entry mem other mem' same
    rcases List.mem_cons.mp mem with rfl | mem <;> rcases List.mem_cons.mp mem' with rfl | mem'
    · rfl
    · exact absurd same.symm (vacant other (List.mem_of_mem_filter mem'))
    · exact absurd same (vacant entry (List.mem_of_mem_filter mem))
    · exact h.apart entry (List.mem_of_mem_filter mem) other (List.mem_of_mem_filter mem') same
  rests :=
    List.forall_mem_cons.mpr ⟨rests, fun entry mem => h.rests entry (List.mem_of_mem_filter mem)⟩

/-- The room that a new session gets is new, and it stands there. -/
theorem rests_seated (h : s.IsOrderly i) (seat : Seat) :
    (s.seated seat).store.IsRoom s.store.frames.size ∧
      (Session.new s.registry s.store.frames.size).Rests i late (s.seated seat).store := by
  have extend : s.store.Extends (s.seated seat).store := (s.store.widens_alloc _).toExtends
  have root : ∀ name v, (s.seated seat).store.local? 0 name = some v →
      (s.seated seat).store.Offers v := by
    intro name v found
    rw [Server.seated, Store.local?_alloc] at found
    have offer := h.offers name v found
    have widens := s.store.widens_alloc (some s.globals)
    exact ⟨offer.homeless, offer.source, fun other mem =>
      widens.contains h.nonempty (offer.free other mem)⟩
  have top : (s.seated seat).store.parent? 0 = none := (extend.parent 0 h.nonempty).trans h.top
  have room : (s.seated seat).store.IsRoom s.store.frames.size :=
    ⟨(Store.parent?_alloc _).trans (congrArg some h.globals), h.nonempty⟩
  have blank : ∀ name, (s.seated seat).store.local? s.store.frames.size name = none :=
    fun name => by
    rw [Server.seated, Store.local?, Store.bindings_alloc]
    rfl
  exact ⟨room, Session.rests_new _ top room blank (h.owns.bound.alloc _) root⟩

/-- A new session gets a room of its own. -/
theorem seated (h : s.IsOrderly i) (seat : Seat) :
    (s.seated seat).IsOrderly i ∧ ∀ entry ∈ s.idle, entry.2.Spared s.store
    (s.seated seat).store := by
  have spares := s.store.spares_alloc (fun _ => False) (some s.globals)
  obtain ⟨made, spared⟩ : Server.IsOrderly i
      { s with store := (s.store.alloc (some s.globals)).1 } ∧ _ :=
    h.written spares nofun (h.owns.bound.alloc _) rfl rfl
  obtain ⟨room, rests⟩ := h.rests_seated seat
  exact ⟨made.put room (fun entry mem => Nat.ne_of_lt (h.rooms entry mem).lt) rests nofun, spared⟩

end IsOrderly

end Service.Server

/-! ## Networks -/

/-- A request that has failed did not fail for want of a name. -/
def Wire.Outcome.IsPlain (o : Outcome) : Prop := ∀ name, o.result ≠ .error (.unbound name)

theorem Wire.Pending.plain_failures (p : Wire.Pending) (reason : String) :
    ∀ o ∈ p.failures reason, o.IsPlain := by
  intro o mem name
  obtain ⟨slot, -, waits⟩ := List.mem_filterMap.mp mem
  obtain ⟨ticket, -, rfl⟩ := Option.map_eq_some_iff.mp waits
  exact nofun

theorem Wire.Pending.plain_respond (p : Wire.Pending) (text : String) :
    ∀ o ∈ (p.respond text).2, o.IsPlain := by
  intro o mem name
  unfold Wire.Pending.respond at mem
  split at mem
  · rw [List.mem_singleton.mp mem]
    exact nofun
  · exact nomatch mem

namespace Peer.Table

variable (t : Peer.Table)

theorem plain_drop (id : ConnectionId) (reason : String) :
    ∀ o ∈ (t.drop id reason).2.1, o.IsPlain := by
  unfold drop
  cases t.remove id with
  | none => exact nofun
  | some left =>
      obtain ⟨t', client, remote⟩ := left
      cases remote with
      | none => exact nofun
      | some remote => exact remote.pending.plain_failures reason

/-- What is lost with all connections is lost with one of them. -/
theorem forall_dropAll {p : Outcome → Prop}
    (each : ∀ (t : Peer.Table) (id : ConnectionId),
      ∀ o ∈ (t.drop id Wire.connectionClosed).2.1, p o) :
    ∀ o ∈ t.dropAll.2, p o := by
  refine List.foldlRecOn (motive := fun r : Peer.Table × List Outcome => ∀ o ∈ r.2, p o) t.ids _
    (List.forall_mem_nil _) ?_
  intro r all id _
  exact List.forall_mem_append.mpr ⟨all, each r.1 id⟩

theorem plain_respond (id : ConnectionId) (text : String) :
    ∀ o ∈ (t.respond id text).2, o.IsPlain := by
  unfold respond
  dsimp only
  split
  · exact Wire.Pending.plain_respond _ text
  · exact nofun

end Peer.Table

namespace Network

variable {n n' n'' : Network} {i j : Nat} {seat : Seat} {s s' : Server} {session : Session}

/-- The sessions of all servers that do not run stand. -/
structure Sound (n : Network) : Prop where
  servers : ∀ (i : Nat) (s : Server), n.servers[i]? = some s → s.IsOrderly i
  outcomes : ∀ o ∈ n.outcomes, o.IsPlain

/-- A session of a server that does not run. -/
structure Seated (n : Network) (i : Nat) (seat : Seat) (s : Server) (session : Session) : Prop where
  found : n.servers[i]? = some s
  idle : s.idle.lookup seat = some session

/-- Whatever has happened, a session did not run meanwhile and the frames that it keeps are as they
were. -/
def Meanwhile (i : Nat) (seat : Seat) (n n' : Network) : Prop :=
  ∃ s s' session, n.Seated i seat s session ∧ n'.Seated i seat s' session ∧
    session.Spared s.store s'.store

theorem Sound.owned (h : n.Sound) : n.Owned := fun i s found => (h.servers i s found).owns

/-- What is told of the sessions: it is told of new ones on connections, and remains true when they
do not run and when they get a message. -/
structure Account where
  tells : Nat → Seat → Network → Prop
  /-- the console of the server stays on its seat and does not run -/
  rests : Nat → Prop
  opened : ∀ {n : Network} {i : Nat} {id : ConnectionId} {s : Server}, n.Sound →
    n.servers[i]? = some s → tells i (.connection id) (n.modifyServer i (·.seated (.connection id)))
  message : ∀ {n : Network} {i : Nat} {id : ConnectionId} {s : Server}
    {session : Session} (steps : Nat)
    (text : String), tells i (.connection id) n → n.Seated i (.connection id) s session →
    tells i (.connection id) (evaluate (hostWith (settleFor steps)) n i (.connection id) text).1
  meanwhile : ∀ {n n' : Network} {i : Nat} {seat : Seat}, tells i seat n →
    n.Meanwhile i seat n' → n'.Sound → tells i seat n'
  ledger : Ledger := .blank

namespace Account

/-- Nothing is told. -/
def silent : Account where
  tells _ _ _ := True
  rests _ := False
  opened _ _ := trivial
  message _ _ _ _ := trivial
  meanwhile _ _ _ := trivial

/-- The same with another ledger. -/
def withLedger (a : Account) (ledger : Ledger) : Account := { a with ledger }

/-- Nothing is told of the console of the server, which may run. -/
def IsFree (a : Account) (i : Nat) : Prop := ¬ a.rests i ∧ ∀ n, a.tells i .console n

/-- Nothing is told of consoles, and nothing is in the ledger. -/
class OfConnections (a : Account) : Prop where
  free : ∀ i, a.IsFree i
  blank : ∀ n, a.ledger.Holds n

instance : silent.OfConnections := ⟨fun _ => ⟨id, fun _ => trivial⟩, fun _ => ⟨trivial, trivial⟩⟩

/-- A session may leave its seat to run. -/
structure Allows (a : Account) (i : Nat) (seat : Seat) : Prop where
  rests : seat = .console → ¬ a.rests i
  away : ∀ n, a.ledger.frame n → ¬ n.Holding a.ledger.links i seat

variable {a : Account} {i : Nat} {id : ConnectionId}

theorem allows_connection
    (away : ∀ n, a.ledger.frame n → ¬ n.Holding a.ledger.links i (.connection id)) :
    a.Allows i (.connection id) := ⟨nofun, away⟩

theorem IsFree.allows (free : a.IsFree i) : a.Allows i .console :=
  ⟨fun _ => free.1, fun _ _ held => held.ne_console rfl⟩

end Account

/-- A network is sound, and what an account tells of its sessions is true. -/
structure Settled (a : Account) (n : Network) : Prop extends n.Sound where
  tells : ∀ (i : Nat) (seat : Seat) (s : Server) (session : Session), n.Seated i seat s session →
    a.tells i seat n
  rests : ∀ i, a.rests i → ∃ s session, n.Seated i .console s session
  holds : a.ledger.Holds n

namespace Settled

variable {a : Account} (h : n.Settled a)

include h

theorem withLedger {ledger : Ledger} (holds : ledger.Holds n) : n.Settled (a.withLedger ledger) :=
  ⟨h.toSound, h.tells, h.rests, holds⟩

/-- The sessions are settled whatever the ledger says. -/
theorem bare : n.Settled (a.withLedger .blank) := h.withLedger ⟨trivial, trivial⟩

theorem told (i : Nat) (id : ConnectionId) (s : Server) (session : Session)
    (seated : n.Seated i (.connection id) s session) : a.tells i (.connection id) n :=
  h.tells i _ s session seated

/-- The sessions have not run, or else it is known what is told of them. -/
theorem become (sound : n'.Sound)
    (kept : ∀ (i : Nat) (seat : Seat) (s : Server) (session : Session),
      n'.Seated i seat s session → n.Meanwhile i seat n' ∨ a.tells i seat n')
    (stays : ∀ (i : Nat) (s : Server) (session : Session), a.rests i →
      n.Seated i .console s session →
      ∃ s' session', n'.Seated i .console s' session')
    (holds : a.ledger.Holds n') : n'.Settled a := by
  refine ⟨sound, fun i seat s' session seated => ?_, fun i rests => ?_, holds⟩
  · rcases kept i seat s' session seated with ⟨s, t, session', before, after, spared⟩ | told
    · exact a.meanwhile (h.tells i seat s session' before)
        ⟨s, t, session', before, after, spared⟩ sound
    · exact told
  · obtain ⟨s, session, seated⟩ := h.rests i rests
    exact stays i s session rests seated

/-- One server is changed. -/
theorem modifyServer {change : Server → Server}
    (orderly : ∀ s, n.servers[i]? = some s → (change s).IsOrderly i)
    (kept : ∀ s, n.servers[i]? = some s → ∀ (seat : Seat) (session : Session),
      (change s).idle.lookup seat = some session →
      (s.idle.lookup seat = some session ∧ session.Spared s.store (change s).store) ∨
        a.tells i seat (n.modifyServer i change))
    (stays : ∀ s, n.servers[i]? = some s → a.rests i →
      ∀ session, s.idle.lookup .console = some session →
      ∃ session', (change s).idle.lookup .console = some session')
    (holds : a.ledger.Holds (n.modifyServer i change)) :
    (n.modifyServer i change).Settled a := by
  have elsewhere : ∀ {j : Nat}, j ≠ i → (n.modifyServer i change).servers[j]? = n.servers[j]? :=
    fun ne => by
    rw [Network.modifyServer, Array.getElem?_modify, if_neg (Ne.symm ne)]
  have here : ∀ {s' : Server}, (n.modifyServer i change).servers[i]? = some s' →
      ∃ s, n.servers[i]? = some s ∧ s' = change s := by
    intro s' found
    obtain ⟨s, there⟩ := server_of_size (n := n) Array.size_modify found
    rw [servers_modifyServer there] at found
    exact ⟨s, there, (Option.some.inj found).symm⟩
  refine h.become ⟨fun j s' found => ?_, h.outcomes⟩ (fun j seat s' session seated => ?_)
    (fun j s session rests seated => ?_) holds
  · by_cases same : j = i
    · subst same
      obtain ⟨s, there, rfl⟩ := here found
      exact orderly s there
    · exact h.servers j s' (elsewhere same ▸ found)
  · by_cases same : j = i
    · subst same
      obtain ⟨s, there, rfl⟩ := here seated.found
      exact (kept s there seat session seated.idle).imp_left fun known =>
        ⟨s, _, session, ⟨there, known.1⟩, seated, known.2⟩
    · have before : n.Seated j seat s' session := ⟨elsewhere same ▸ seated.found, seated.idle⟩
      exact .inl ⟨s', s', session, before, seated, .refl _ _⟩
  · by_cases same : j = i
    · subst same
      obtain ⟨session', idle⟩ := stays s seated.found rests session seated.idle
      exact ⟨_, session', servers_modifyServer seated.found _, idle⟩
    · exact ⟨s, session, (elsewhere same).trans seated.found, seated.idle⟩

/-- Neither the frames nor the sessions of a server are changed. -/
theorem calm {change : Server → Server} (store : ∀ s, (change s).store = s.store)
    (globals : ∀ s, (change s).globals = s.globals) (idle : ∀ s, (change s).idle = s.idle)
    (holds : a.ledger.Holds (n.modifyServer i change)) : (n.modifyServer i change).Settled a :=
  h.modifyServer
    (fun s found => (h.servers i s found).of_idle (store s) (globals s)
      (idle s ▸ List.Subset.refl _))
    (fun s _ _ _ there => .inl ⟨idle s ▸ there, store s ▸ .refl _ _⟩)
    (fun s _ _ session there => ⟨session, (idle s).symm ▸ there⟩) holds

/-- What is changed has nothing to do with frames, sessions or connections. -/
theorem aside {change : Server → Server} (store : ∀ s, (change s).store = s.store)
    (globals : ∀ s, (change s).globals = s.globals) (idle : ∀ s, (change s).idle = s.idle)
    (peer : ∀ s, (change s).peer = s.peer) (settings : ∀ s, (change s).settings = s.settings)
    (registry : ∀ s, (change s).registry = s.registry)
    (serial : ∀ s, (change s).serial = s.serial) : (n.modifyServer i change).Settled a :=
  h.calm store globals idle (h.holds.incident (.server (fun s _ => peer s) fun s _ =>
    { settings := settings s
      registry := registry s
      globals := globals s
      extends_ := store s ▸ .refl _
      root := by rw [store]
      serial := Nat.le_of_eq (serial s).symm
      idle := fun _ _ => by rw [idle]
      spared := fun _ _ _ _ => store s ▸ .refl _ _ }))

/-- The servers are the same. -/
theorem of_servers (same : n'.servers = n.servers) (outcomes : ∀ o ∈ n'.outcomes, o.IsPlain)
    (holds : a.ledger.Holds n') : n'.Settled a := by
  refine h.become ⟨fun i s found => h.servers i s (same ▸ found), outcomes⟩
    (fun i seat s session seated => ?_)
    (fun i s session _ seated => ⟨s, session, same ▸ seated.found, seated.idle⟩) holds
  have before : n.Seated i seat s session := ⟨same ▸ seated.found, seated.idle⟩
  exact .inl ⟨s, s, session, before, seated, .refl _ _⟩

/-- Neither servers nor links are changed, and no request begins or ends. -/
theorem around (servers : n'.servers = n.servers) (links : n'.links = n.links)
    (outcomes : n'.outcomes = n.outcomes) (tickets : n'.nextTicket = n.nextTicket) :
    n'.Settled a :=
  h.of_servers servers (outcomes ▸ h.outcomes)
    (h.holds.incident (.around servers links outcomes tickets))

/-- Servers accept no more connections. -/
theorem stop (i : Nat) : (n.modifyServer i Server.stop).Settled a :=
  h.aside (fun _ => rfl) (fun _ => rfl) (fun _ => rfl) (fun _ => rfl) (fun _ => rfl) (fun _ => rfl)
    fun _ => rfl

theorem modifyPeer (change : Peer.Table → Peer.Table)
    (holds : a.ledger.Holds (n.modifyPeer i change)) : (n.modifyPeer i change).Settled a :=
  h.calm (fun _ => rfl) (fun _ => rfl) (fun _ => rfl) holds

/-- Something is noted in a table. -/
theorem noted {change : Peer.Table → Peer.Table}
    (notes : ∀ s, n.servers[i]? = some s → s.peer.Notes (change s.peer)) :
    (n.modifyPeer i change).Settled a :=
  h.modifyPeer change (h.holds.incident (.note notes))

theorem modifyLink (k : Nat) (change : Link → Link)
    (holds : a.ledger.Holds (n.modifyLink k change)) : (n.modifyLink k change).Settled a :=
  h.of_servers rfl h.outcomes holds

/-- Something is read or written on a link, or an end of it is closed. -/
theorem linked {k : Nat} {change : Link → Link} (away : ¬ a.ledger.links k)
    (parties : ∀ l side, ((change l).side side).party = (l.side side).party) :
    (n.modifyLink k change).Settled a :=
  h.modifyLink k change (h.holds.incident (.link (fun mine => absurd mine away)
    fun l side _ _ _ => by rw [parties l side]))

theorem vacated {seat : Seat} (allows : a.Allows i seat) :
    (n.modifyServer i (·.vacated seat)).Settled a := by
  have other : ∀ (s : Server) (other : Seat), other ≠ seat →
      (s.vacated seat).idle.lookup other = s.idle.lookup other := fun s other ne => by
    rw [Server.vacated, Association.lookup_erase, if_neg ne]
  refine h.modifyServer
    (fun s found => (h.servers i s found).of_idle rfl rfl fun _ => List.mem_of_mem_filter)
    (fun s _ other session there => ?_) (fun s _ rests session there => ⟨session, ?_⟩)
    (h.holds.incident (.server (fun _ _ => rfl) fun s _ => ⟨rfl, rfl, rfl, .refl _, rfl,
      Nat.le_refl _, fun seat own => other s seat ?_, fun _ _ _ _ => .refl _ _⟩))
  · change (Association.erase seat s.idle).lookup _ = _ at there
    rw [Association.lookup_erase] at there
    split at there
    · cases there
    · exact .inl ⟨there, .refl _ _⟩
  · rw [other s .console fun same => allows.rests same.symm rests]
    exact there
  · rintro rfl
    exact allows.away n h.holds.frame own

/-- A session is new on its seat, and it is known what is told of it. -/
theorem seatedAt (seat : Seat)
    (told : ∀ s, n.servers[i]? = some s → a.tells i seat (n.modifyServer i (·.seated seat)))
    (holds : a.ledger.Holds (n.modifyServer i (·.seated seat))) :
    (n.modifyServer i (·.seated seat)).Settled a := by
  refine h.modifyServer (fun s found => ((h.servers i s found).seated seat).1)
    (fun s found other session there => ?_) (fun s _ _ session there => ?_) holds
  · by_cases same : other = seat
    · exact .inr (same ▸ told s found)
    · change (Association.put seat _ s.idle).lookup _ = _ at there
      rw [Association.lookup_put, if_neg same] at there
      exact .inl ⟨there, ((h.servers i s found).seated seat).2 _ (mem_of_idle there)⟩
  · change ∃ session', (Association.put seat _ s.idle).lookup _ = some session'
    rw [Association.lookup_put]
    split
    · exact ⟨_, rfl⟩
    · exact ⟨session, there⟩

/-- A server gives itself a console. -/
theorem console (free : a.IsFree i) : (n.modifyServer i (·.seated .console)).Settled a :=
  h.seatedAt .console (fun _ _ => free.2 _)
    (h.holds.incident (.server (fun _ _ => rfl) fun s found =>
    { settings := rfl
      registry := rfl
      globals := rfl
      extends_ := (s.store.widens_alloc _).toExtends
      root := (s.store.spares_alloc (fun _ => False) (some s.globals)).bindings 0
        (h.servers i s found).nonempty id
      serial := Nat.le_refl _
      idle := fun _ own =>
        (Association.lookup_put ..).trans (if_neg own.ne_console)
      spared := fun _ _ _ idle => ((h.servers i s found).seated .console).2 _ (mem_of_idle idle) }))

/-- Some requests have ended. -/
theorem ended {outcomes : List Outcome} (plain : ∀ o ∈ outcomes, o.IsPlain)
    (holds : a.ledger.Holds { n with outcomes := n.outcomes ++ outcomes }) :
    Settled a { n with outcomes := n.outcomes ++ outcomes } :=
  h.of_servers rfl (List.forall_mem_append.mpr ⟨h.outcomes, plain⟩) holds

theorem drop (id : ConnectionId) (reason : String) : (n.drop i id reason).1.Settled a := by
  have removed : (n.modifyPeer i fun _ => ((n.peer i).drop id reason).1).Settled
      (a.withLedger .blank) := h.bare.modifyPeer _ ⟨trivial, trivial⟩
  have dropped := removed.ended ((n.peer i).plain_drop id reason) ⟨trivial, trivial⟩
  exact dropped.withLedger (h.holds.incident (.drop i id reason))

/-- A response is taken. -/
theorem take {id : ConnectionId} {k : Nat} {side : Side} (held : n.HeldBy k side i id)
    (away : ¬ n.Holding a.ledger.links i (.connection id)) (text : String) :
    (n.take i id text).Settled a := by
  have noted : (n.modifyPeer i fun _ => ((n.peer i).respond id text).1).Settled
      (a.withLedger .blank) := h.bare.modifyPeer _ ⟨trivial, trivial⟩
  have taken := noted.ended ((n.peer i).plain_respond id text) ⟨trivial, trivial⟩
  exact taken.withLedger (h.holds.incident (.take text held away))

theorem hangUp {k : Nat} (side : Side) {id : ConnectionId} (reason : String)
    (link : ¬ a.ledger.links k) (allows : a.Allows i (.connection id)) :
    (n.hangUp k side i id reason).Settled a :=
  ((h.drop id reason).vacated allows).linked link fun l other => by
    cases side <;> cases other <;> rfl

theorem queue (id : ConnectionId) (waits : Bool) (holds : a.ledger.Holds (n.queue i id waits)) :
    (n.queue i id waits).Settled a := by
  have pushed : (n.modifyPeer i
      (·.pushSlot id (if waits then some n.nextTicket else none))).Settled (a.withLedger .blank) :=
    h.bare.modifyPeer _ ⟨trivial, trivial⟩
  have queued : (n.queue i id waits).Settled (a.withLedger .blank) :=
    pushed.of_servers rfl pushed.outcomes ⟨trivial, trivial⟩
  exact queued.withLedger holds

theorem accept (target : Target) (holds : a.ledger.Holds (n.accept target).1) :
    (n.accept target).1.Settled a := by
  cases target with
  | elsewhere => exact h
  | remote port replies => exact h.of_servers rfl h.outcomes holds
  | server j =>
      cases found : n.servers[j]? with
      | none =>
          rw [accept_absent found]
          exact h
      | some s =>
          have added : (n.modifyPeer j fun _ => (s.peer.add none).1).Settled
              (a.withLedger .blank) := h.bare.modifyPeer _ ⟨trivial, trivial⟩
          rw [accept_server found] at holds ⊢
          exact (added.seatedAt _ (fun _ found => a.opened added.toSound found)
            ⟨trivial, trivial⟩).withLedger holds

end Settled

/-! ## What scripts do to a network -/

/-- Whichever way an act has ended, the network is settled, and no name is missing. -/
abbrev Act.Ended {α : Type} (a : Account) : EStateM.Result Fault Network α → Prop
  | .ok _ n' => n'.Settled a
  | .error fault n' => n'.Settled a ∧ ∀ name, fault ≠ .unbound name

/-- The act leaves all settled networks settled. -/
def Act.Settles {α : Type} (a : Account) (act : Act α) : Prop :=
  ∀ n : Network, n.Settled a → Act.Ended a (act n)

theorem Act.Ended.after {a : Account} {α : Type} {act : Act α} (ended : Act.Ended a (act n)) :
    (act.after n).Settled a := by
  unfold Act.after
  cases ran : act n with
  | ok x n' =>
      rw [ran] at ended
      exact ended
  | error fault n' =>
      rw [ran] at ended
      exact ended.1

namespace Act.Settles

variable {a : Account} {α β : Type}

theorem bind {act : Act α} {next : α → Act β} (h : Settles a act) (rest : ∀ x, Settles a (next x)) :
    Settles a (act >>= next) := by
  intro n settled
  have first := h n settled
  have step : (act >>= next) n = (match act n with
    | .ok a n' => next a n'
    | .error fault n' => .error fault n') := by
    change EStateM.bind act next n = _
    rw [EStateM.bind]
    cases act n <;> rfl
  rw [step]
  cases ran : act n with
  | error fault n₁ =>
      rw [ran] at first
      exact first
  | ok x n₁ =>
      rw [ran] at first
      exact rest x n₁ first

theorem entered (i : Nat) : Settles a (Network.entered i) := by
  intro n settled
  unfold Network.entered Peer.Table.enteredOrFault
  cases (n.peer i).entered with
  | none => exact ⟨settled, nofun⟩
  | some id => exact settled

theorem boundPort (i : Nat) : Settles a (Network.boundPort i) := by
  intro n settled
  unfold Network.boundPort
  cases n.servers[i]?.bind Server.port with
  | none => exact ⟨settled, nofun⟩
  | some port => exact settled

theorem leave (i : Nat) : Settles a (Network.leave i) := fun _ settled =>
  settled.noted fun _ _ => ⟨rfl, fun _ => rfl, fun _ => rfl⟩

theorem remote_error {t : Peer.Table} {id : ConnectionId} {fault : Fault}
    (failed : t.remote id = .error fault) (name : String) : fault ≠ .unbound name := by
  unfold Peer.Table.remote at failed
  split at failed <;> cases failed <;> exact nofun

theorem enter (i : Nat) (id : Option ConnectionId) : Settles a (Network.enter i id) := by
  intro n settled
  unfold Network.enter
  cases entered : (n.peer i).enter id with
  | ok result =>
      refine settled.noted fun s found => ?_
      rw [peer_of_found found] at entered
      exact Peer.Table.notes_enter entered
  | error fault =>
      refine ⟨settled, ?_⟩
      unfold Peer.Table.enter at entered
      split at entered
      · split at entered
        · exact nomatch entered
        · rename_i failed
          cases entered
          exact remote_error failed
      · split at entered
        · exact nomatch entered
        · cases entered
          exact fun _ => nofun

theorem send (i : Nat) (id : ConnectionId) (text : String) (waits : Bool) :
    Settles a (Network.send i id text waits) := by
  intro n settled
  have holds := settled.holds.incident (.send i id text waits)
  have queued : (n.queue i id waits).Settled (a.withLedger .blank) :=
    settled.bare.queue id waits ⟨trivial, trivial⟩
  unfold Act.after at holds
  unfold Network.send at holds ⊢
  cases found : (n.peer i).remote id with
  | error fault => exact ⟨settled, remote_error found⟩
  | ok remote =>
      rw [found] at holds
      dsimp only at holds ⊢
      cases written : n.write remote.link (Text.Utf8.encode text) with
      | ok frame =>
          rw [written] at holds
          have linked := queued.modifyLink remote.link (·.write .opener frame) ⟨trivial, trivial⟩
          exact (linked.modifyPeer _ ⟨trivial, trivial⟩).withLedger holds
      | error fault =>
          rw [written] at holds
          refine ⟨(queued.drop id _).withLedger holds, ?_⟩
          rcases write_fails written with ⟨reason, rfl⟩ | ⟨reason, rfl⟩
          · exact fun _ => nofun
          · exact fun _ => nofun

theorem sending (i : Nat) (id : Option ConnectionId) (text : String) (waits : Bool) :
    Settles a (Network.sending i id text waits) := by
  cases id with
  | some id => exact send i id text waits
  | none => exact bind (entered i) fun id => send i id text waits

end Act.Settles

/-- A server of a network connects. -/
theorem Settled.connect {a : Account} (settled : n.Settled a) {host : String} {port : Nat}
    (holds : a.ledger.Holds ((Network.connect i host port).after n)) :
    Act.Ended a (Network.connect i host port n) := by
  unfold Act.after at holds
  unfold Network.connect at holds ⊢
  cases reached : n.reach host port with
  | error fault =>
      obtain ⟨reason, rfl⟩ := reach_fails reached
      exact ⟨settled, nofun⟩
  | ok target =>
      rw [reached] at holds
      generalize added : (n.peer i).add (some ⟨n.links.size, .empty⟩) = result at holds ⊢
      obtain ⟨table, id⟩ := result
      have opened : (n.modifyPeer i fun _ => table).Settled (a.withLedger .blank) :=
        settled.bare.modifyPeer _ ⟨trivial, trivial⟩
      have accepted := opened.accept target ⟨trivial, trivial⟩
      dsimp only at holds ⊢
      generalize (n.modifyPeer i fun _ => table).accept target = result at accepted holds ⊢
      obtain ⟨n', party⟩ := result
      have joined : (n'.join (.server i id) party).Settled (a.withLedger .blank) :=
        accepted.of_servers rfl accepted.outcomes ⟨trivial, trivial⟩
      exact joined.withLedger holds

end Network

end PeerScript
