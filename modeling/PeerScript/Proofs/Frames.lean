import Mathlib.Data.List.Forall2
import PeerScript.Store

/-!
# Frames of a store

What a change of a store leaves as it was, and how the chains of frames and the homes of functions
in them are made up.
-/

set_option autoImplicit false

namespace PeerScript.Store

variable {s : Store} {f g : FrameId} {name : String}

/-! ## One frame -/

theorem lt_of_parent? (h : s.parent? f = some g) : f < s.frames.size := by
  by_contra large
  rw [parent?, Array.getElem?_eq_none (Nat.le_of_not_lt large)] at h
  exact nomatch h

theorem bindings_congr {s t : Store} (same : s.frames[f]? = t.frames[f]?) :
    s.bindings f = t.bindings f := by
  rw [bindings, bindings, same]

theorem parent?_congr {s t : Store} (same : s.frames[f]? = t.frames[f]?) :
    s.parent? f = t.parent? f := by
  rw [parent?, parent?, same]

/-! ## Changes -/

theorem size_modify (change : List (String × Value) → List (String × Value)) :
    (s.modify f change).frames.size = s.frames.size := Array.size_modify

theorem frames_modify (change : List (String × Value) → List (String × Value)) :
    (s.modify f change).frames[f]? =
      s.frames[f]?.map fun frame => { frame with bindings := change frame.bindings } := by
  rw [modify, Array.getElem?_modify, if_pos rfl]

theorem frames_modify_of_ne (change : List (String × Value) → List (String × Value)) (ne : g ≠ f) :
    (s.modify f change).frames[g]? = s.frames[g]? := by
  rw [modify, Array.getElem?_modify, if_neg (Ne.symm ne)]

theorem parent?_modify (change : List (String × Value) → List (String × Value)) :
    (s.modify f change).parent? g = s.parent? g := by
  by_cases same : g = f
  · subst same
    rw [parent?, parent?, frames_modify]
    cases s.frames[g]? <;> rfl
  · exact parent?_congr (frames_modify_of_ne change same)

theorem bindings_modify (change : List (String × Value) → List (String × Value))
    (exists_ : f < s.frames.size) : (s.modify f change).bindings f = change (s.bindings f) := by
  rw [bindings, bindings, frames_modify, Array.getElem?_eq_getElem exists_]
  rfl

theorem size_set (value : Value) : (s.set f name value).frames.size = s.frames.size := size_modify _

theorem frames_set_of_ne (value : Value) (ne : g ≠ f) :
    (s.set f name value).frames[g]? = s.frames[g]? := frames_modify_of_ne _ ne

theorem parent?_set (value : Value) : (s.set f name value).parent? g = s.parent? g :=
  parent?_modify _

theorem bindings_set (value : Value) (exists_ : f < s.frames.size) :
    (s.set f name value).bindings f = Association.put name value (s.bindings f) :=
  bindings_modify _ exists_

theorem size_alloc (parent : Option FrameId) :
    (s.alloc parent).1.frames.size = s.frames.size + 1 := Array.size_push _

theorem frames_alloc_of_lt (parent : Option FrameId) (lt : f < s.frames.size) :
    (s.alloc parent).1.frames[f]? = s.frames[f]? := Array.getElem?_push_lt lt ▸
  (Array.getElem?_eq_getElem lt).symm

theorem parent?_alloc (parent : Option FrameId) :
    (s.alloc parent).1.parent? s.frames.size = parent := by
  rw [parent?, alloc, Array.getElem?_push_size]
  rfl

theorem bindings_alloc (parent : Option FrameId) :
    (s.alloc parent).1.bindings s.frames.size = [] := by
  rw [bindings, alloc, Array.getElem?_push_size]
  rfl

/-! ## Chains -/

theorem chain_of_none (h : s.parent? f = none) : s.chain f = [f] := by
  rw [chain, h]

theorem chain_of_some (h : s.parent? f = some g) (lt : g < f) : s.chain f = f :: s.chain g := by
  rw [chain, h]
  exact if_pos lt

theorem get?_of_chain {chain : List FrameId} (h : s.chain f = chain) :
    s.get? f name = chain.findSome? fun g => s.local? g name := by
  rw [get?, h]

/-- A name means something where it has a value. -/
theorem contains_eq : s.contains f name = (s.get? f name).isSome := by
  rw [contains, get?, Bool.eq_iff_iff, List.any_eq_true, List.findSome?_isSome_iff]
  refine exists_congr fun g => and_congr_right fun _ => ?_
  rw [local?, List.any_eq_true, List.lookup_isSome_iff]
  refine exists_congr fun b => and_congr_right fun _ => ?_
  rw [beq_iff_eq, beq_iff_eq, eq_comm]

/-! ## Homes -/

/-- The homes of the functions that a frame binds. -/
def bound (s : Store) (f : FrameId) : List FrameId := Value.homesAll ((s.bindings f).map (·.2))

end PeerScript.Store
