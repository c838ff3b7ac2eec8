import PeerScript.Proofs.Alike.Answers
import PeerScript.Proofs.Globals
import PeerScript.Proofs.Locality

/-!
# The same session on two servers

A session that does not run is compared with one of another server, or of the same server at another
time.  A `Sitting` says that the two can get hold of the same, up to the frames and the instances
that are paired.  Whatever else happens to the servers, this remains true as long as the frames that
the sessions keep are left alone; and a text without reserved names has the same answer in both.
-/

set_option autoImplicit false

namespace PeerScript

open Service (Server Seat IsReserved)

/-! ## Frames that others leave alone -/

/-- The frames that the session keeps are as they were. -/
def Session.Spared (session : Session) (s t : Store) : Prop :=
  s.Spares (fun f => ¬ s.alive session.handles f = true) t

/-- Who has found the frames of a session as it left them leaves them so for others. -/
theorem Session.Spared.trans {session : Session} {s t u : Store} (h : session.Spared s t)
    (k : session.Spared t u) : session.Spared s u := by
  refine Store.Spares.trans h k fun f size dead kept => dead ?_
  obtain ⟨o, owns, above⟩ := Store.alive_iff.mp kept
  refine Store.alive_iff.mpr ⟨o, owns, ?_⟩
  by_cases lt : o < s.frames.size
  · rwa [h.toExtends.chain_eq lt]
  · -- a handle that leads to no frame is above nothing but itself
    have none : s.parent? o = none := by
      rw [Store.parent?, Array.getElem?_eq_none (Nat.le_of_not_lt lt)]
      rfl
    rw [Store.chain_of_none none, List.mem_singleton] at above
    exact absurd (above ▸ size) lt

section Spared

variable {σ τ : Type} {hidden : String → Prop} {root : FrameId} {p : Pairing}

/-- What a session can get hold of depends on the frames that it keeps. -/
theorem Machine.Tends.spared {m : Machine σ} {c : Common τ} (h : m.Tends hidden Anything)
    (spared : m.session.Spared m.common.store c.store) :
    (⟨m.session, c⟩ : Machine τ).Tends hidden Anything where
  owned o mem := Nat.lt_of_lt_of_le (h.owned o mem) spared.size
  stack v mem := ⟨(h.stack v mem).housed, trivial⟩
  bound f kept name v shown found := by
    have before : m.Keeps f := (spared.toExtends.alive_iff h.owned).mp kept
    change c.store.local? f name = some v at found
    rw [Store.local?, spared.bindings f (h.lt_of_keeps before) (not_not_intro before)] at found
    exact ⟨(h.bound f before name v shown found).housed, trivial⟩

/-- Machines look alike as long as the frames that their sessions keep are left alone. -/
theorem Machine.Alike.spared {m m' : Machine σ} {c d : Common τ} (h : m.Alike hidden root p m')
    (left : m.session.Spared m.common.store c.store)
    (right : m'.session.Spared m'.common.store d.store)
    (serial : m.common.serial ≤ c.serial) (serial' : m'.common.serial ≤ d.serial) :
    (⟨m.session, c⟩ : Machine τ).Alike hidden root p ⟨m'.session, d⟩ where
  session := h.session
  one := h.one
  below f g paired :=
    ⟨Nat.lt_of_lt_of_le (h.below f g paired).1 serial,
      Nat.lt_of_lt_of_le (h.below f g paired).2 serial'⟩
  frames f g paired := by
    obtain ⟨f', g', parent, parent', lt, lt', above⟩ := (h.frames f g paired).parents
    refine ⟨fun ⟨kept, kept'⟩ => ?_, f', g', ?_, ?_, lt, lt', above⟩
    · have before : m.Keeps f := (left.toExtends.alive_iff h.left.owned).mp kept
      have before' : m'.Keeps g := (right.toExtends.alive_iff h.right.owned).mp kept'
      rw [left.bindings f (h.there paired).1 (not_not_intro before),
        right.bindings g (h.there paired).2 (not_not_intro before')]
      exact (h.frames f g paired).bindings ⟨before, before'⟩
    · exact (left.parent f (h.there paired).1).trans parent
    · exact (right.parent g (h.there paired).2).trans parent'
  captured := h.captured
  left := h.left.spared left
  right := h.right.spared right

/-- All frames that a session keeps are paired, but for the global one. -/
theorem Machine.Alike.paired_of_keeps {m m' : Machine σ} (h : m.Alike hidden root p m')
    (top : m.common.store.parent? root = none) {f : FrameId} (kept : m.Keeps f) :
    f = root ∨ ∃ g, p.frames f g := by
  have above : ∀ f g, p.frames f g → ∀ e ∈ m.common.store.chain f, e = root ∨ ∃ g,
      p.frames e g := by
    intro f
    induction f using Nat.strongRecOn with
    | ind f ih =>
        intro g paired e mem
        obtain ⟨f', g', parent, -, lt, -, above⟩ := (h.frames f g paired).parents
        rw [Store.chain_of_some parent lt, List.mem_cons] at mem
        rcases mem with rfl | mem
        · exact .inr ⟨g, paired⟩
        · rcases above with above | ⟨rfl, -⟩
          · exact ih f' lt g' above e mem
          · rw [Store.chain_of_none top, List.mem_singleton] at mem
            exact .inl mem
  obtain ⟨o, owns, mem⟩ := Store.alive_iff.mp kept
  have own : ∃ g, p.frames o g := by
    rcases List.mem_append.mp owns with captured | own
    · exact h.captured o captured
    · rcases List.mem_cons.mp own with rfl | mem
      · exact ⟨_, h.session.ambient⟩
      · exact Pairing.exists_right h.session.running mem
  obtain ⟨g, paired⟩ := own
  exact above o g paired f mem

end Spared

/-! ## Servers -/

namespace Service.Server

section Common

variable {σ : Type} (s : Server) (world : σ)

theorem suspend_all (entries : List (Seat × Session)) (c : Common σ) :
    (entries.foldl (fun c entry => c.suspend entry.2) c).store = c.store ∧
      (entries.foldl (fun c entry => c.suspend entry.2) c).serial = c.serial ∧
      (entries.foldl (fun c entry => c.suspend entry.2) c).printed = c.printed ∧
      (entries.foldl (fun c entry => c.suspend entry.2) c).world = c.world := by
  induction entries generalizing c with
  | nil => exact ⟨rfl, rfl, rfl, rfl⟩
  | cons entry entries ih => exact ih (c.suspend entry.2)

theorem common_store : (s.common world).store = s.store := (suspend_all s.idle _).1

theorem common_serial : (s.common world).serial = s.serial := (suspend_all s.idle _).2.1

theorem common_printed : (s.common world).printed = s.printed := (suspend_all s.idle _).2.2.1

theorem common_world : (s.common world).world = world := (suspend_all s.idle _).2.2.2

end Common

/-- Two servers whose global scopes offer the same. -/
structure Offers (s t : Server) : Prop where
  top : s.store.parent? 0 = none
  top_right : t.store.parent? 0 = none
  nonempty : 0 < s.store.frames.size
  nonempty_right : 0 < t.store.frames.size
  offers : OffersAlike IsReserved (s.store.bindings 0) (t.store.bindings 0)

/-- The global scopes are the same. -/
theorem Offers.kept {s s' t t' : Server} (h : s.Offers t) (left : s.store.Extends s'.store)
    (root : s'.store.bindings 0 = s.store.bindings 0) (right : t.store.Extends t'.store)
    (root_right : t'.store.bindings 0 = t.store.bindings 0) : s'.Offers t' where
  top := (left.parent 0 h.nonempty).trans h.top
  top_right := (right.parent 0 h.nonempty_right).trans h.top_right
  nonempty := Nat.lt_of_lt_of_le h.nonempty left.size
  nonempty_right := Nat.lt_of_lt_of_le h.nonempty_right right.size
  offers := by
    rw [root, root_right]
    exact h.offers

theorem Offers.seated {s t : Server} (h : s.Offers t) (seat seat' : Seat) :
    (s.seated seat).Offers (t.seated seat') :=
  h.kept (s.store.widens_alloc _).toExtends
    (Store.bindings_congr (Store.frames_alloc_of_lt _ h.nonempty))
    (t.store.widens_alloc _).toExtends
    (Store.bindings_congr (Store.frames_alloc_of_lt _ h.nonempty_right))

/-- The global scope and some other frames are foreign to a session of a server. -/
def around {σ : Type} (s : Server) (top : s.store.parent? 0 = none)
    (nonempty : 0 < s.store.frames.size) (others : FrameId → Prop) (c : Common σ)
    (store : c.store = s.store) : Neighbours σ 0 where
  foreign f := f = 0 ∨ others f ∧ f < s.store.frames.size
  start := c
  root_foreign := .inl rfl
  root_parent := store ▸ top
  lt_of_foreign f foreign := by
    rw [store]
    rcases foreign with rfl | ⟨-, lt⟩
    · exact nonempty
    · exact lt

variable {s t : Server}

/-- What surrounds a session of each of two servers. -/
def Offers.sides {σ : Type} (h : s.Offers t) (others : FrameId → Prop) (c d : Common σ)
    (store : c.store = s.store) (store' : d.store = t.store) : Sides σ IsReserved 0 where
  left := s.around h.top h.nonempty others c store
  right := t.around h.top_right h.nonempty_right (fun _ => False) d store'
  offers := by
    change OffersAlike IsReserved (c.store.bindings 0) (d.store.bindings 0)
    rw [store, store']
    exact h.offers

end Service.Server

/-! ## Sittings -/

namespace Service

/-- A session that does not run, on a server and on another one: it can get hold of the same, up to
the pairing. -/
structure Sitting (p : Pairing) (s t : Server) (x y : Session) : Prop where
  rest : x.depth = 0
  own : ∀ f g, p.frames f g → f ≠ 0 ∧ g ≠ 0
  alike : (Machine.mk x (s.common ())).Alike IsReserved 0 p ⟨y, t.common ()⟩

namespace Sitting

variable {σ : Type} {p : Pairing} {s s' t t' : Server} {x y : Session} (h : Sitting p s t x y)

include h

/-- The servers have changed, but for the frames that the sessions keep. -/
theorem spared (left : x.Spared s.store s'.store) (right : y.Spared t.store t'.store)
    (serial : s.serial ≤ s'.serial) (serial' : t.serial ≤ t'.serial) : Sitting p s' t' x y where
  rest := h.rest
  own := h.own
  alike := by
    refine h.alike.spared ?_ ?_ ?_ ?_
    · rwa [Server.common_store, Server.common_store]
    · rwa [Server.common_store, Server.common_store]
    · rwa [Server.common_serial, Server.common_serial]
    · rwa [Server.common_serial, Server.common_serial]

/-- The machines in which the sessions run look alike. -/
theorem machines (offers : s.Offers t) {others : FrameId → Prop}
    (apart : ∀ f g, p.frames f g → ¬ others f) {c d : Common σ} (store : c.store = s.store)
    (store' : d.store = t.store) (serial : c.serial = s.serial) (serial' : d.serial = t.serial) :
    Machines (offers.sides others c d store store') ⟨x.place, y.place⟩ p ⟨x, c⟩ ⟨y, d⟩ where
  toAlike := by
    refine h.alike.spared ?_ ?_ (Nat.le_of_eq ?_) (Nat.le_of_eq ?_)
    · rw [Server.common_store, store]
      exact .refl _ _
    · rw [Server.common_store, store']
      exact .refl _ _
    · rw [Server.common_serial, serial]
    · rw [Server.common_serial, serial']
  place_left := rfl
  place_right := rfl
  kept_left := ⟨fun _ _ => rfl, .refl _, Nat.le_refl _, rfl⟩
  kept_right := ⟨fun _ _ => rfl, .refl _, Nat.le_refl _, rfl⟩
  own f g paired := by
    refine ⟨?_, ?_⟩
    · rintro (root | ⟨other, -⟩)
      · exact (h.own f g paired).1 root
      · exact apart f g paired other
    · rintro (root | ⟨other, -⟩)
      · exact (h.own f g paired).2 root
      · exact other

end Sitting

/-- Sessions that have run in machines that look alike sit down again. -/
theorem sitting_of_machines {σ : Type} {w : Sides σ IsReserved 0} {at_ : Places} {q : Pairing}
    {m m' : Machine σ} (machines : Machines w at_ q m m') (rest : at_.left.depth = 0)
    {s t : Server} (store : s.store = m.common.store) (store' : t.store = m'.common.store)
    (serial : s.serial = m.common.serial) (serial' : t.serial = m'.common.serial) :
    Sitting q s t m.session m'.session where
  rest := (congrArg Place.depth machines.place_left).trans rest
  own f g paired := by
    obtain ⟨left, right⟩ := machines.own f g paired
    exact ⟨fun root => left (root ▸ w.left.root_foreign),
      fun root => right (root ▸ w.right.root_foreign)⟩
  alike := by
    refine machines.toAlike.spared ?_ ?_ (Nat.le_of_eq ?_) (Nat.le_of_eq ?_)
    · rw [Server.common_store, store]
      exact .refl _ _
    · rw [Server.common_store, store']
      exact .refl _ _
    · rw [Server.common_serial, serial]
    · rw [Server.common_serial, serial']

section New

variable {s t : Server} {registry : Registry}

/-- A new session can get hold of what the global scope offers. -/
theorem tends_new {σ : Type} {c : Common σ} {room : FrameId}
    (parent : c.store.parent? room = some 0) (pos : 0 < room) (top : c.store.parent? 0 = none)
    (blank : c.store.bindings room = [])
    (offers : OffersAlike IsReserved (c.store.bindings 0) (c.store.bindings 0)) :
    (⟨.new registry room, c⟩ : Machine σ).Tends IsReserved Anything where
  owned o mem := by
    obtain rfl : o = room := List.mem_singleton.mp mem
    exact Store.lt_of_parent? parent
  stack := nofun
  bound f kept name v shown found := by
    obtain ⟨o, mem, above⟩ := Store.alive_iff.mp kept
    obtain rfl : o = room := List.mem_singleton.mp mem
    change f ∈ c.store.chain o at above
    change (c.store.bindings f).lookup name = some v at found
    rw [Store.chain_of_some parent pos, Store.chain_of_none top, List.mem_cons,
      List.mem_singleton] at above
    rcases above with rfl | rfl
    · rw [blank] at found
      exact nomatch found
    · obtain ⟨b, rfl⟩ := (offers name shown).2 v found
      exact ⟨Machine.houses_plain nofun, trivial⟩

/-- The new session of a seat can get hold of what the global scope offers. -/
theorem tends_seated (globals : s.globals = 0) (nonempty : 0 < s.store.frames.size)
    (top : s.store.parent? 0 = none)
    (offers : OffersAlike IsReserved (s.store.bindings 0) (s.store.bindings 0)) {σ : Type}
    {c : Common σ} {seat : Seat} (store : c.store = (s.seated seat).store) :
    (⟨.new registry s.store.frames.size, c⟩ : Machine σ).Tends IsReserved Anything := by
  have frame : c.store.frames[0]? = s.store.frames[0]? := by
    rw [store]
    exact Store.frames_alloc_of_lt _ nonempty
  refine tends_new ?_ nonempty ?_ ?_ ?_
  · rw [store, ← globals]
    exact Store.parent?_alloc _
  · rw [Store.parent?_congr frame]
    exact top
  · rw [store]
    exact Store.bindings_alloc _
  · rw [Store.bindings_congr frame]
    exact offers

/-- New sessions of two servers that offer the same. -/
theorem Sitting.new (offers : s.Offers t) (natural : registry.IsNatural) (globals : s.globals = 0)
    (globals' : t.globals = 0) (seat seat' : Seat) :
    Sitting (Pairing.nothing.withFrames s.store.frames.size t.store.frames.size) (s.seated seat)
      (t.seated seat') (.new registry s.store.frames.size) (.new registry t.store.frames.size) where
  rest := rfl
  own := by
    rintro f g (none | ⟨rfl, rfl⟩)
    · exact none.elim
    · exact ⟨Nat.ne_of_gt offers.nonempty, Nat.ne_of_gt offers.nonempty_right⟩
  alike := by
    have left : ((s.seated seat).common ()).store = (s.store.alloc (some 0)).1 :=
      (Server.common_store _ _).trans (globals ▸ rfl)
    have right : ((t.seated seat').common ()).store = (t.store.alloc (some 0)).1 :=
      (Server.common_store _ _).trans (globals' ▸ rfl)
    exact
      { session := ⟨rfl, natural, .inr ⟨rfl, rfl⟩, .nil, rfl, .nil⟩
        one := Pairing.nothing_isOneToOne.withFrames (fun _ => False.elim) fun _ => False.elim
        below := fun _ _ => False.elim
        frames := by
          rintro f g (none | ⟨rfl, rfl⟩)
          · exact none.elim
          · change FramesAlike _ _ _ _ ((s.seated seat).common ()).store
              ((t.seated seat').common ()).store _ _
            rw [left, right]
            exact framesAlike_alloc _ offers.nonempty offers.nonempty_right (.inr ⟨rfl, rfl⟩)
        captured := nofun
        left := tends_seated globals offers.nonempty offers.top
          (fun name shown => ⟨rfl, (offers.offers name shown).2⟩) (Server.common_store _ _)
        right := tends_seated globals' offers.nonempty_right offers.top_right
          (fun name shown => ⟨rfl, fun v found => (offers.offers name shown).2 v
            ((offers.offers name shown).1.trans found)⟩) (Server.common_store _ _) }

end New

end Service

/-! ## Answers -/

namespace Network

open Service (Sitting)

variable {p : Pairing} {s t : Server} {x y : Session} {n n' : Network} {i i' : Nat}
  {seat seat' : Seat}

/-- A text without reserved names has the same answer in both sessions.  The machines behind it look
alike, and frames of others are as they were. -/
theorem evaluate_alike (host host' : Host Network) (sitting : Sitting p s t x y)
    (offers : s.Offers t) (found : n.servers[i]? = some s) (found' : n'.servers[i']? = some t)
    (idle : s.idle.lookup seat = some x) (idle' : t.idle.lookup seat' = some y)
    (language : t.settings.language = s.settings.language)
    (policy : t.settings.stackPolicy = s.settings.stackPolicy) (others : FrameId → Prop)
    (apart : ∀ f g, p.frames f g → ¬ others f) {text : String}
    (avoids : Script.Avoids IsReserved text) :
    ∃ q m m' answer, Machines (offers.sides others (n.machineOf i s seat x).common
        (n'.machineOf i' t seat' y).common (Server.common_store _ _) (Server.common_store _ _))
        ⟨x.place, y.place⟩ q m m' ∧
      evaluate host n i seat text = (seatedAgain i seat m, answer) ∧
      evaluate host' n' i' seat' text = (seatedAgain i' seat' m', answer) := by
  have machines := sitting.machines offers apart
    (c := (n.machineOf i s seat x).common) (d := (n'.machineOf i' t seat' y).common)
    (Server.common_store _ _) (Server.common_store _ _) (Server.common_serial _ _)
    (Server.common_serial _ _)
  have run := answer_alike host host' s.settings.language s.settings.stackPolicy avoids
    sitting.rest machines
  rw [evaluate_eq host text found idle, evaluate_eq host' text found' idle', language, policy]
  change Ends _ _ _ _ (answer host _ _ text (n.machineOf i s seat x))
    (answer host' _ _ text (n'.machineOf i' t seat' y)) at run
  generalize answer host s.settings.language s.settings.stackPolicy text
      (n.machineOf i s seat x) = a,
    answer host' s.settings.language s.settings.stackPolicy text
      (n'.machineOf i' t seat' y) = b at run ⊢
  cases run with
  | ok _ machines same =>
      cases same
      exact ⟨_, _, _, _, machines, rfl, rfl⟩
  | error stop _ machines => exact ⟨_, _, _, _, machines, rfl, rfl⟩

end Network

end PeerScript
