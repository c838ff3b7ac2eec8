import PeerScript.Proofs.Alike
import PeerScript.Proofs.Homes

/-!
# Stores that look alike to a session

A session shares its store with others.  Its own frames are those that a pairing knows; the others
are foreign to it, the global one among them.  `Sides` are two stores with what is foreign in them,
of which the two global frames mean the same by every name that is not hidden.

Frames are alike when their parents are paired or global and when, as far as anybody can still look
into them, they bind alike values to the same names.  `FramesAlike` is kept when a name is bound in
paired frames and when frames are added.
-/

set_option autoImplicit false

namespace PeerScript

/-- What is foreign to a session in a store with the given global frame. -/
structure Neighbours (σ : Type) (root : FrameId) where
  foreign : FrameId → Prop
  /-- what is shared, as the session finds it -/
  start : Common σ
  root_foreign : foreign root
  root_parent : start.store.parent? root = none
  lt_of_foreign : ∀ f, foreign f → f < start.store.frames.size

/-- Bindings that mean the same by every name that is not hidden, and that is a builtin. -/
def OffersAlike (hidden : String → Prop) (bs cs : List (String × Value)) : Prop :=
  ∀ name, ¬ hidden name → bs.lookup name = cs.lookup name ∧
    ∀ v, bs.lookup name = some v → ∃ b, v = .native b

/-- The neighbours of two sessions with the same global frame. -/
structure Sides (σ : Type) (hidden : String → Prop) (root : FrameId) where
  left : Neighbours σ root
  right : Neighbours σ root
  offers : OffersAlike hidden (left.start.store.bindings root) (right.start.store.bindings root)

/-- What is foreign has been left as it was. -/
structure Neighbours.Kept {σ : Type} {root : FrameId} (a : Neighbours σ root) (c : Common σ) :
    Prop where
  frames : ∀ f, a.foreign f → c.store.frames[f]? = a.start.store.frames[f]?
  grown : a.start.store.Extends c.store
  serial : a.start.serial ≤ c.serial
  world : c.world = a.start.world

/-- Bindings of alike values to the same names. -/
abbrev BindingsAlike (hidden : String → Prop) (p : Pairing) :
    List (String × Value) → List (String × Value) → Prop :=
  List.Forall₂ fun x y => x.1 = y.1 ∧ x.2.Alike hidden p y.2

/-- Frames with parents that are paired or global, which bind alike values if they are in use. -/
structure FramesAlike (hidden : String → Prop) (root : FrameId) (p : Pairing) (used : Prop)
    (s t : Store) (f g : FrameId) : Prop where
  bindings : used → BindingsAlike hidden p (s.bindings f) (t.bindings g)
  parents : ∃ f' g', s.parent? f = some f' ∧ t.parent? g = some g' ∧ f' < f ∧ g' < g ∧
    (p.frames f' g' ∨ f' = root ∧ g' = root)

variable {σ : Type} {hidden : String → Prop} {root : FrameId}

/-! ## Bindings -/

namespace BindingsAlike

variable {p : Pairing} {bs cs : List (String × Value)} (h : BindingsAlike hidden p bs cs)

theorem zip (params : List String) {vs ws : List Value} (args : Value.AllAlike hidden p vs ws) :
    BindingsAlike hidden p (params.zip vs) (params.zip ws) := by
  induction params generalizing vs ws with
  | nil => exact .nil
  | cons param params ih =>
      cases args with
      | nil => exact .nil
      | cons first rest => exact .cons ⟨rfl, first⟩ (ih rest)

include h

theorem lookup (name : String) :
    Option.Rel (Value.Alike hidden p) (bs.lookup name) (cs.lookup name) := by
  induction h with
  | nil => exact .none
  | @cons x y bs cs first _ ih =>
      obtain ⟨k, v⟩ := x
      obtain ⟨k', v'⟩ := y
      obtain ⟨rfl, alike⟩ : k = k' ∧ v.Alike hidden p v' := first
      rw [List.lookup_cons, List.lookup_cons]
      cases name == k with
      | true => exact .some alike
      | false => exact ih

theorem put (name : String) {v w : Value} (alike : v.Alike hidden p w) :
    BindingsAlike hidden p (Association.put name v bs) (Association.put name w cs) := by
  refine .cons ⟨rfl, alike⟩ (List.rel_filter (fun {x y} same => ?_) h)
  dsimp only
  rw [same.1]

theorem mono {q : Pairing} (le : p ≤ q) : BindingsAlike hidden q bs cs :=
  h.imp fun _ _ same => ⟨same.1, same.2.mono le⟩

end BindingsAlike

/-- What is offered under a name that is not hidden is alike to itself. -/
theorem OffersAlike.lookup {p : Pairing} {bs cs : List (String × Value)}
    (h : OffersAlike hidden bs cs) {name : String} (shown : ¬ hidden name) :
    Option.Rel (Value.Alike hidden p) (bs.lookup name) (cs.lookup name) := by
  obtain ⟨same, native⟩ := h name shown
  rw [← same]
  cases found : bs.lookup name with
  | none => exact .none
  | some v =>
      obtain ⟨b, rfl⟩ := native v found
      exact .some (.native b)

/-! ## Frames -/

namespace FramesAlike

variable {p : Pairing} {used : Prop} {s t : Store} {f g f' g' : FrameId}
  (h : FramesAlike hidden root p used s t f g)

include h

theorem mono {q : Pairing} (le : p ≤ q) : FramesAlike hidden root q used s t f g := by
  obtain ⟨f', g', parent, parent', lt, lt', above⟩ := h.parents
  exact ⟨fun use => (h.bindings use).mono le, f', g', parent, parent', lt, lt',
    above.imp_left (le.1 f' g')⟩

/-- Frames may go out of use. -/
theorem unused {less : Prop} (fewer : less → used) : FramesAlike hidden root p less s t f g :=
  ⟨fun use => h.bindings (fewer use), h.parents⟩

theorem lt_left : f < s.frames.size := by
  obtain ⟨f', g', parent, -⟩ := h.parents
  exact Store.lt_of_parent? parent

theorem lt_right : g < t.frames.size := by
  obtain ⟨f', g', -, parent, -⟩ := h.parents
  exact Store.lt_of_parent? parent

/-- The frames are the same in other stores. -/
theorem congr {s' t' : Store} (bindings : s'.bindings f = s.bindings f)
    (parent : s'.parent? f = s.parent? f) (bindings' : t'.bindings g = t.bindings g)
    (parent' : t'.parent? g = t.parent? g) : FramesAlike hidden root p used s' t' f g where
  bindings := by
    rw [bindings, bindings']
    exact h.bindings
  parents := by
    rw [parent, parent']
    exact h.parents

theorem of_frames {s' t' : Store} (same : s'.frames[f]? = s.frames[f]?)
    (same' : t'.frames[g]? = t.frames[g]?) : FramesAlike hidden root p used s' t' f g :=
  h.congr (Store.bindings_congr same) (Store.parent?_congr same) (Store.bindings_congr same')
    (Store.parent?_congr same')

/-- A name has been bound to alike values in paired frames. -/
theorem set (one : p.IsOneToOne) (here : p.frames f g) (paired : p.frames f' g') (name : String)
    {v v' : Value} (alike : v.Alike hidden p v') :
    FramesAlike hidden root p used (s.set f' name v) (t.set g' name v') f g := by
  by_cases same : f = f'
  · subst same
    obtain rfl : g = g' := one.frame_right here paired
    refine ⟨fun use => ?_, ?_⟩
    · rw [Store.bindings_set v h.lt_left, Store.bindings_set v' h.lt_right]
      exact (h.bindings use).put name alike
    · simp only [Store.parent?_set]
      exact h.parents
  · have other : g ≠ g' := fun same' => same (one.frame_left here (same' ▸ paired))
    exact h.of_frames (Store.frames_set_of_ne v same) (Store.frames_set_of_ne v' other)

theorem setAll (one : p.IsOneToOne) (here : p.frames f g) (paired : p.frames f' g')
    {bs cs : List (String × Value)} (alike : BindingsAlike hidden p bs cs) :
    FramesAlike hidden root p used (s.setAll f' bs) (t.setAll g' cs) f g := by
  induction alike generalizing s t with
  | nil => exact h
  | @cons x y _ _ first _ ih =>
      have rest := ih (h.set one here paired x.1 first.2)
      rw [Store.setAll, Store.setAll, List.foldl_cons, List.foldl_cons, ← first.1]
      exact rest

/-- Frames have been added. -/
theorem alloc (parent parent' : Option FrameId) :
    FramesAlike hidden root p used (s.alloc parent).1 (t.alloc parent').1 f g :=
  h.of_frames (Store.frames_alloc_of_lt parent h.lt_left)
    (Store.frames_alloc_of_lt parent' h.lt_right)

end FramesAlike

/-- Frames that have just been added are alike. -/
theorem framesAlike_alloc {p : Pairing} (used : Prop) {s t : Store} {f g : FrameId}
    (lt : f < s.frames.size) (lt' : g < t.frames.size)
    (above : p.frames f g ∨ f = root ∧ g = root) :
    FramesAlike hidden root p used (s.alloc (some f)).1 (t.alloc (some g)).1 s.frames.size
      t.frames.size where
  bindings _ := by
    rw [Store.bindings_alloc, Store.bindings_alloc]
    exact .nil
  parents := ⟨f, g, Store.parent?_alloc _, Store.parent?_alloc _, lt, lt', above⟩

/-! ## Foreign frames -/

namespace Neighbours.Kept

variable {a : Neighbours σ root} {c : Common σ} (h : a.Kept c)

include h

theorem chain_root : c.store.chain root = [root] := by
  refine Store.chain_of_none ?_
  rw [Store.parent?_congr (h.frames root a.root_foreign)]
  exact a.root_parent

/-- A frame of the session's own has been changed. -/
theorem set {f : FrameId} (own : ¬ a.foreign f) (name : String) (v : Value) :
    a.Kept { c with store := c.store.set f name v } where
  frames := fun g foreign => by
    have ne : g ≠ f := fun same => own (same ▸ foreign)
    rw [Store.frames_set_of_ne v ne]
    exact h.frames g foreign
  grown := h.grown.trans (c.store.extends_set f name v)
  serial := h.serial
  world := h.world

theorem setAll {f : FrameId} (own : ¬ a.foreign f) (bindings : List (String × Value)) :
    a.Kept { c with store := c.store.setAll f bindings } := by
  induction bindings generalizing c with
  | nil => exact h
  | cons b rest ih => exact ih (h.set own b.1 b.2)

/-- A frame has been added. -/
theorem alloc (parent : Option FrameId) :
    a.Kept { c with store := (c.store.alloc parent).1 } where
  frames := fun f foreign => by
    have lt : f < c.store.frames.size :=
      Nat.lt_of_lt_of_le (a.lt_of_foreign f foreign) h.grown.size
    rw [Store.frames_alloc_of_lt parent lt]
    exact h.frames f foreign
  grown := h.grown.trans (c.store.widens_alloc parent).toExtends
  serial := h.serial
  world := h.world

/-- A frame that has been added is not foreign. -/
theorem fresh : ¬ a.foreign c.store.frames.size := fun foreign =>
  Nat.lt_irrefl _ (Nat.lt_of_lt_of_le (a.lt_of_foreign _ foreign) h.grown.size)

/-- More serial numbers have been given out, and lines have been printed. -/
theorem later {d : Common σ} (store : d.store = c.store) (world : d.world = c.world)
    (le : c.serial ≤ d.serial) : a.Kept d where
  frames f foreign := store ▸ h.frames f foreign
  grown := store ▸ h.grown
  serial := Nat.le_trans h.serial le
  world := world.trans h.world

end Neighbours.Kept

/-- What the global frame offers under a name that is not hidden is alike. -/
theorem Sides.root_alike (w : Sides σ hidden root) {p : Pairing} {c d : Common σ}
    (left : w.left.Kept c) (right : w.right.Kept d) {name : String} (shown : ¬ hidden name) :
    Option.Rel (Value.Alike hidden p) (c.store.local? root name) (d.store.local? root name) := by
  rw [Store.local?, Store.local?, Store.bindings_congr (left.frames root w.left.root_foreign),
    Store.bindings_congr (right.frames root w.right.root_foreign)]
  exact w.offers.lookup shown

end PeerScript
