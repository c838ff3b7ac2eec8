import PeerScript.Proofs.Homes

/-!
# Lookups in chains of frames

Frames are made after their parents, so the parents have no cycles and a walk along them ends.  A
lookup of a name walks up until a frame binds the name: `Visits` says which frames it comes to.  A
lookup that comes to a frame is the only one that notices when the binding of its name there is
changed.
-/

set_option autoImplicit false

namespace PeerScript.Store

variable {s t : Store} {f g p : FrameId} {name : String} {v : Value}

/-! ## Children and descendants -/

/-- A frame is a child of another one. -/
def IsChild (s : Store) (f p : FrameId) : Prop := s.parent? f = some p

/-- A frame is another one or a descendant of it. -/
def Descends (s : Store) : FrameId → FrameId → Prop := Relation.ReflTransGen s.IsChild

/-- Frames are made after their parents. -/
def IsOrdered (s : Store) : Prop := ∀ f p, s.IsChild f p → p < f

namespace IsOrdered

theorem wellFounded (h : s.IsOrdered) : WellFounded (flip s.IsChild) :=
  Subrelation.wf (fun {p f} child => h f p child) Nat.lt_wfRel.wf

theorem lt_of_transGen (h : s.IsOrdered) (path : Relation.TransGen s.IsChild f g) : g < f := by
  induction path with
  | single child => exact h _ _ child
  | tail _ child below => exact Nat.lt_trans (h _ _ child) below

theorem acyclic (h : s.IsOrdered) (f : FrameId) : ¬ Relation.TransGen s.IsChild f f :=
  fun path => Nat.lt_irrefl f (h.lt_of_transGen path)

theorem chain_child (h : s.IsOrdered) (child : s.IsChild f p) : s.chain f = f :: s.chain p :=
  chain_of_some child (h f p child)

/-- A chain is made up of the frames that its first frame descends from. -/
theorem mem_chain_iff (h : s.IsOrdered) : g ∈ s.chain f ↔ s.Descends f g := by
  constructor
  · intro mem
    induction f using Nat.strongRecOn with
    | ind f ih =>
        rcases s.chain_cases f with same | ⟨p, child, below, same⟩ <;> rw [same] at mem
        · cases List.mem_singleton.mp mem
          exact .refl
        · rcases List.mem_cons.mp mem with rfl | mem
          · exact .refl
          · exact .head child (ih p below mem)
  · intro path
    induction path using Relation.ReflTransGen.head_induction_on with
    | refl => exact s.mem_chain_self g
    | head child _ mem =>
        rw [h.chain_child child]
        exact List.mem_cons_of_mem _ mem

theorem le_of_descends (h : s.IsOrdered) (path : s.Descends f g) : g ≤ f :=
  (chain_subset (h.mem_chain_iff.mpr path)).1

end IsOrdered

/-! ## Visits -/

/-- A lookup of a name that starts at one frame comes to another one: no frame in front of that
binds the name. -/
inductive Visits (s : Store) (name : String) : FrameId → FrameId → Prop
  | here (f : FrameId) : Visits s name f f
  | above {f p g : FrameId} : s.local? f name = none → s.IsChild f p → Visits s name p g →
      Visits s name f g

theorem Visits.descends (h : s.Visits name f g) : s.Descends f g := by
  induction h with
  | here => exact .refl
  | above _ child _ path => exact .head child path

namespace IsOrdered

/-- A name means in a frame what the frame binds to it, or else what it means in the parent. -/
theorem get?_eq (h : s.IsOrdered) (f : FrameId) (name : String) :
    s.get? f name = (s.local? f name).or ((s.parent? f).bind (s.get? · name)) := by
  cases parent : s.parent? f with
  | none =>
      rw [get?_of_chain (chain_of_none parent), List.findSome?_cons]
      cases s.local? f name <;> rfl
  | some p =>
      rw [get?_of_chain (h.chain_child parent), List.findSome?_cons]
      cases s.local? f name <;> rfl

theorem get?_of_unbound (h : s.IsOrdered) (unbound : s.local? f name = none)
    (child : s.IsChild f p) :
    s.get? f name = s.get? p name := by
  rw [h.get?_eq f, unbound, child]
  rfl

/-- A name means what the nearest frame binds to it that binds it. -/
theorem get?_eq_some_iff (h : s.IsOrdered) :
    s.get? f name = some v ↔ ∃ g, s.Visits name f g ∧ s.local? g name = some v := by
  constructor
  · intro found
    induction f using Nat.strongRecOn with
    | ind f ih =>
        cases bound : s.local? f name with
        | some w =>
            rw [h.get?_eq, bound] at found
            exact ⟨f, .here f, bound.trans found⟩
        | none =>
            rw [h.get?_eq, bound, Option.none_or, Option.bind_eq_some_iff] at found
            obtain ⟨p, child, found⟩ := found
            obtain ⟨g, visits, known⟩ := ih p (h f p child) found
            exact ⟨g, .above bound child visits, known⟩
  · rintro ⟨g, visits, known⟩
    induction visits with
    | here f => rw [h.get?_eq, known, Option.some_or]
    | above unbound child _ ih => exact (h.get?_of_unbound unbound child).trans (ih known)

/-- A name means nothing where neither the frame nor any of its ancestors binds it. -/
theorem get?_eq_none_iff (h : s.IsOrdered) :
    s.get? f name = none ↔ ∀ g, s.Descends f g → s.local? g name = none := by
  rw [get?, List.findSome?_eq_none_iff]
  exact forall_congr' fun g => imp_congr_left h.mem_chain_iff

end IsOrdered

/-- What lookups in a store are. -/
structure Lookups (s : Store) : Prop where
  acyclic : ∀ f, ¬ Relation.TransGen s.IsChild f f
  ends : WellFounded (flip s.IsChild)
  nearest : ∀ f name v,
    s.get? f name = some v ↔ ∃ g, s.Visits name f g ∧ s.local? g name = some v
  missing : ∀ f name, s.get? f name = none ↔ ∀ g, s.Descends f g → s.local? g name = none
  contains : ∀ f name, s.contains f name = true ↔ ∃ v, s.get? f name = some v

theorem IsOrdered.lookups (h : s.IsOrdered) : s.Lookups where
  acyclic := h.acyclic
  ends := h.wellFounded
  nearest _ _ _ := h.get?_eq_some_iff
  missing _ _ := h.get?_eq_none_iff
  contains _ _ := by rw [contains_eq, Option.isSome_iff_exists]

/-! ## Changed bindings -/

theorem local?_remove (f : FrameId) (name other : String) :
    (s.remove f name).local? f other = if other = name then none else s.local? f other := by
  by_cases lt : f < s.frames.size
  · rw [local?, remove, bindings_modify _ lt, Association.lookup_erase]
    rfl
  · have large := Nat.le_of_not_lt lt
    rw [local?, local?, remove, bindings_of_le large,
      bindings_of_le (Nat.le_trans (Nat.le_of_eq (size_modify _)) large)]
    exact (ite_self _).symm

theorem local?_remove_of_ne (ne : g ≠ f) (name other : String) :
    (s.remove f name).local? g other = s.local? g other := by
  rw [local?, local?, remove, bindings_congr (frames_modify_of_ne _ ne)]

/-- A name has another binding in one frame, or none there any more, and everything else is as it
was: the lookups that come to the frame find the binding or go on from there, all others find what
they found. -/
structure Rebinds (s t : Store) (f : FrameId) (name : String) (bound : Option Value) : Prop where
  here : t.local? f name = bound
  elsewhere : ∀ g other, ¬ (g = f ∧ other = name) → t.local? g other = s.local? g other
  parent : ∀ g, t.parent? g = s.parent? g
  noticed : ∀ g, s.Visits name g f →
    t.get? g name = bound.or ((s.parent? f).bind (s.get? · name))
  unnoticed : ∀ g other, ¬ (other = name ∧ s.Visits name g f) → t.get? g other = s.get? g other

theorem IsOrdered.congr (h : s.IsOrdered) (parent : ∀ g, t.parent? g = s.parent? g) : t.IsOrdered :=
  fun f p child => h f p ((parent f).symm.trans child)

/-- What a changed binding is noticed by follows from what it changes in its own frame. -/
theorem IsOrdered.rebinds (h : s.IsOrdered) {bound : Option Value} (here : t.local? f name = bound)
    (elsewhere : ∀ g other, ¬ (g = f ∧ other = name) → t.local? g other = s.local? g other)
    (parent : ∀ g, t.parent? g = s.parent? g) : s.Rebinds t f name bound := by
  have ordered : t.IsOrdered := h.congr parent
  have unnoticed : ∀ g other, ¬ (other = name ∧ s.Visits name g f) →
      t.get? g other = s.get? g other := by
    intro g other
    induction g using Nat.strongRecOn with
    | ind g ih =>
        intro unvisited
        have same : t.local? g other = s.local? g other :=
          elsewhere g other fun ⟨at_, named⟩ => unvisited ⟨named, at_ ▸ .here g⟩
        rw [ordered.get?_eq, h.get?_eq, same, parent]
        cases unbound : s.local? g other with
        | some _ => rfl
        | none =>
            refine congrArg _ (Option.bind_congr fun p child => ih p (h g p child) ?_)
            rintro ⟨rfl, visits⟩
            exact unvisited ⟨rfl, .above unbound child visits⟩
  refine ⟨here, elsewhere, parent, fun g visits => ?_, unnoticed⟩
  induction visits with
  | here f =>
      rw [ordered.get?_eq, here, parent]
      refine congrArg _ (Option.bind_congr fun p child => unnoticed p name fun ⟨_, visits⟩ => ?_)
      -- the parent is older, so no lookup from there comes back
      exact Nat.not_le_of_lt (h f p child) (h.le_of_descends visits.descends)
  | @above g p f unbound child visits ih =>
      have below : f < g :=
        Nat.lt_of_le_of_lt (h.le_of_descends visits.descends) (h g p child)
      have still : t.local? g name = none :=
        (elsewhere g name fun same => Nat.ne_of_gt below same.1).trans unbound
      rw [ordered.get?_of_unbound still ((parent g).trans child)]
      exact ih here elsewhere unnoticed

theorem IsOrdered.rebinds_set (h : s.IsOrdered) (lt : f < s.frames.size)
    (name : String) (v : Value) :
    s.Rebinds (s.set f name v) f name (some v) :=
  h.rebinds ((local?_set lt name name v).trans (if_pos rfl))
    (fun g other differs => by
      by_cases same : g = f
      · subst same
        exact (local?_set lt name other v).trans (if_neg fun named => differs ⟨rfl, named⟩)
      · exact local?_set_of_ne same name other v)
    fun _ => parent?_set v

theorem IsOrdered.rebinds_remove (h : s.IsOrdered) (f : FrameId) (name : String) :
    s.Rebinds (s.remove f name) f name none :=
  h.rebinds ((local?_remove f name name).trans (if_pos rfl))
    (fun g other differs => by
      by_cases same : g = f
      · subst same
        exact (local?_remove g name other).trans (if_neg fun named => differs ⟨rfl, named⟩)
      · exact local?_remove_of_ne same name other)
    fun _ => parent?_modify _

end PeerScript.Store
