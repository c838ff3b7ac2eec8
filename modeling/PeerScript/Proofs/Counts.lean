import Mathlib.Logic.Function.Basic
import Mathlib.Data.List.Basic
import PeerScript.Proofs.Lookups

/-!
# Counted handles

Here a frame has a count of the strong handles on it.  The handle that a frame has on its parent
counts like any other: the frame takes it when it is made and gives it up when it is freed, which is
when the last handle on it is given up (`Cells.release`).  `Store.cells` is what the counts of a
store are for the owners of some handles: a frame is there exactly while it is alive, and the
changes of the counts are what becomes of them when a handle is taken or given up, a frame made or a
binding changed.
-/

set_option autoImplicit false

namespace PeerScript

/-! ## Counting -/

/-- A frame with the number of strong handles on it. -/
structure Cell where
  count : Nat
  frame : Frame

/-- The frames that have not been freed. -/
abbrev Cells : Type := FrameId → Option Cell

namespace Cells

/-- A strong handle on a frame is taken. -/
def retain (cells : Cells) (f : FrameId) : Cells :=
  Function.update cells f ((cells f).map fun c => { c with count := c.count + 1 })

/-- A strong handle on a frame is given up.  With the last one the frame is freed, and gives up the
handle on its parent.  That the parent is older is asked only to see that this ends: it always
is. -/
def release (cells : Cells) (f : FrameId) : Cells :=
  match cells f with
  | none => cells
  | some ⟨count, frame⟩ =>
      if 1 < count then Function.update cells f (some ⟨count - 1, frame⟩)
      else match frame.parent with
        | none => Function.update cells f none
        | some p =>
          if p < f then release (Function.update cells f none) p else Function.update cells f none
termination_by f

/-- A frame is made, with one strong handle on it.  It takes a handle on its parent. -/
def alloc (cells : Cells) (f : FrameId) (parent : Option FrameId) : Cells :=
  Function.update (parent.elim cells cells.retain) f (some ⟨1, ⟨[], parent⟩⟩)

/-- The bindings of a frame are changed. -/
def modify (cells : Cells) (f : FrameId) (change : List (String × Value) → List (String × Value)) :
    Cells :=
  Function.update cells f
    ((cells f).map fun c =>
    { c with frame := { c.frame with bindings := change c.frame.bindings } })

variable {cells : Cells} {f : FrameId} {frame : Frame}

/-- A handle that is taken and given up again changes nothing. -/
theorem release_retain {n : Nat} (there : cells f = some ⟨n + 1, frame⟩) :
    (cells.retain f).release f = cells := by
  rw [release, retain, Function.update_self, there, Option.map_some]
  change (if 1 < n + 1 + 1 then _ else _) = _
  rw [if_pos (Nat.lt_add_left_iff_pos.mpr (Nat.succ_pos n)), Function.update_idem]
  exact there ▸ Function.update_eq_self f cells

/-- With the last handle on it a frame is gone, and so is its handle on its parent. -/
theorem release_last (gone : cells f = none) (below : ∀ p, frame.parent = some p → p < f) :
    release (Function.update cells f (some ⟨1, frame⟩)) f =
      frame.parent.elim cells cells.release := by
  have freed : Function.update (Function.update cells f (some ⟨1, frame⟩)) f none = cells := by
    rw [Function.update_idem]
    exact gone ▸ Function.update_eq_self f cells
  rw [release, Function.update_self]
  change (if 1 < 1 then _ else _) = _
  rw [if_neg (Nat.lt_irrefl 1), freed]
  cases parent : frame.parent with
  | none => rfl
  | some p => exact if_pos (below p parent)

end Cells

/-! ## The counts of a store -/

namespace Store

/-- The frames that are alive. -/
def live (s : Store) (owners : List FrameId) : List FrameId :=
  (List.range s.frames.size).filter (s.alive owners)

/-- All strong handles: those of the owners, and those that frames that are alive have on their
parents. -/
def links (s : Store) (owners : List FrameId) : List FrameId :=
  owners ++ (s.live owners).filterMap s.parent?

/-- The frames that are alive, with the numbers of the strong handles on them. -/
def cells (s : Store) (owners : List FrameId) : Cells := fun f =>
  if s.alive owners f then s.frames[f]?.map fun frame => ⟨(s.links owners).count f, frame⟩ else none

variable {s t : Store} {f g p : FrameId} {owners others : List FrameId} {frame : Frame}

theorem cells_apply (s : Store) (owners : List FrameId) (f : FrameId) :
    s.cells owners f = if s.alive owners f then
      s.frames[f]?.map fun frame => ⟨(s.links owners).count f, frame⟩ else none := rfl

theorem cells_of_alive (there : s.frames[f]? = some frame) (alive : s.alive owners f = true) :
    s.cells owners f = some ⟨(s.links owners).count f, frame⟩ := by
  rw [cells_apply, if_pos alive, there]
  rfl

theorem alive_of_mem (mem : f ∈ owners) : s.alive owners f = true :=
  alive_iff.mpr ⟨f, mem, s.mem_chain_self f⟩

/-- The chain of a frame that is alive is alive. -/
theorem alive_of_chain (alive : s.alive owners f = true) (mem : g ∈ s.chain f) :
    s.alive owners g = true := by
  obtain ⟨o, owns, above⟩ := alive_iff.mp alive
  exact alive_iff.mpr ⟨o, owns, (chain_subset above).2 mem⟩

theorem lt_of_alive (held : ∀ o ∈ owners, o < s.frames.size) (alive : s.alive owners f = true) :
    f < s.frames.size := by
  obtain ⟨o, owns, above⟩ := alive_iff.mp alive
  exact Nat.lt_of_le_of_lt (chain_subset above).1 (held o owns)

theorem alive_cons : s.alive (g :: owners) f = true ↔ f ∈ s.chain g ∨ s.alive owners f = true := by
  rw [alive, List.any_cons, Bool.or_eq_true, List.contains_iff_mem, alive]

theorem mem_live : f ∈ s.live owners ↔ f < s.frames.size ∧ s.alive owners f = true := by
  rw [live, List.mem_filter, List.mem_range]

theorem nodup_live : (s.live owners).Nodup := List.nodup_range.filter _

theorem IsOrdered.alive_parent (h : s.IsOrdered) (alive : s.alive owners f = true)
    (child : s.IsChild f p) : s.alive owners p = true := by
  refine alive_of_chain alive ?_
  rw [h.chain_child child]
  exact List.mem_cons_of_mem _ (s.mem_chain_self p)

/-! ### The order of the owners -/

theorem alive_perm (same : owners.Perm others) : s.alive owners = s.alive others := by
  funext f
  rw [Bool.eq_iff_iff, alive_iff, alive_iff]
  exact exists_congr fun o => and_congr_left' same.mem_iff

theorem cells_perm (same : owners.Perm others) : s.cells owners = s.cells others := by
  have links : (s.links owners).Perm (s.links others) := by
    rw [Store.links, Store.links, live, live, alive_perm same]
    exact same.append_right _
  funext f
  rw [cells_apply, cells_apply, alive_perm same, links.count_eq f]

/-! ### Handles on frames that are alive -/

/-- A handle on a frame that is alive keeps nothing else alive. -/
theorem alive_cons_of_alive (alive : s.alive owners f = true) :
    s.alive (f :: owners) = s.alive owners := by
  funext g
  rw [Bool.eq_iff_iff, alive_cons, or_iff_right_of_imp (alive_of_chain alive)]

theorem links_cons_of_alive (alive : s.alive owners f = true) :
    s.links (f :: owners) = f :: s.links owners := by
  rw [links, live, alive_cons_of_alive alive]
  rfl

/-- To take a handle on a frame that is alive is to count it. -/
theorem retain_cells (alive : s.alive owners f = true) :
    (s.cells owners).retain f = s.cells (f :: owners) := by
  funext g
  rw [Cells.retain, cells_apply s (f :: owners), alive_cons_of_alive alive,
    links_cons_of_alive alive]
  by_cases same : g = f
  · subst same
    rw [Function.update_self, cells_apply, if_pos alive, if_pos alive, List.count_cons_self,
      Option.map_map]
    rfl
  · rw [Function.update_of_ne same, cells_apply, List.count_cons_of_ne (Ne.symm same)]

/-- There is a handle on a frame that is alive. -/
theorem IsOrdered.mem_links (h : s.IsOrdered) : f ∈ s.links owners ↔ s.alive owners f = true := by
  rw [links, List.mem_append, List.mem_filterMap]
  constructor
  · rintro (mem | ⟨g, lives, child⟩)
    · exact alive_of_mem mem
    · exact h.alive_parent (mem_live.mp lives).2 child
  · intro alive
    obtain ⟨o, owns, above⟩ := alive_iff.mp alive
    rcases Relation.ReflTransGen.cases_tail (h.mem_chain_iff.mp above) with rfl | ⟨g, path, child⟩
    · exact .inl owns
    · have lives : s.alive owners g = true := alive_iff.mpr ⟨o, owns, h.mem_chain_iff.mpr path⟩
      exact .inr ⟨g, mem_live.mpr ⟨lt_of_parent? child, lives⟩, child⟩

/-! ### Handles on frames that are not alive -/

/-- A handle on a frame keeps it alive, and what a handle on its parent would keep. -/
theorem IsOrdered.alive_cons (h : s.IsOrdered) :
    s.alive (f :: owners) g = true ↔ g = f ∨ s.alive ((s.parent? f).toList ++ owners) g = true := by
  rw [Store.alive_cons]
  cases parent : s.parent? f with
  | none => rw [chain_of_none parent, List.mem_singleton, Option.toList_none, List.nil_append]
  | some p =>
      rw [h.chain_child parent, List.mem_cons, or_assoc, ← Store.alive_cons]
      rfl

/-- A frame is not alive for a handle on its parent. -/
theorem IsOrdered.dead_of_parent (h : s.IsOrdered) (dead : ¬ s.alive owners f = true) :
    ¬ s.alive ((s.parent? f).toList ++ owners) f = true := by
  cases parent : s.parent? f with
  | none => exact dead
  | some p =>
      intro alive
      rcases Store.alive_cons.mp alive with mem | alive
      · exact Nat.not_le_of_lt (h f p parent) (chain_subset mem).1
      · exact dead alive

theorem IsOrdered.live_cons_perm (h : s.IsOrdered) (lt : f < s.frames.size)
    (dead : ¬ s.alive owners f = true) :
    (s.live (f :: owners)).Perm (f :: s.live ((s.parent? f).toList ++ owners)) := by
  have new : f ∉ s.live ((s.parent? f).toList ++ owners) := fun mem =>
    h.dead_of_parent dead (mem_live.mp mem).2
  refine (List.perm_ext_iff_of_nodup nodup_live (List.nodup_cons.mpr ⟨new, nodup_live⟩)).mpr
    fun g => ?_
  rw [mem_live, h.alive_cons, List.mem_cons, mem_live]
  constructor
  · rintro ⟨lt, rfl | alive⟩
    · exact .inl rfl
    · exact .inr ⟨lt, alive⟩
  · rintro (rfl | ⟨lt, alive⟩)
    · exact ⟨lt, .inl rfl⟩
    · exact ⟨lt, .inr alive⟩

/-- The first handle on a frame brings that of the frame on its parent. -/
theorem IsOrdered.links_cons_perm (h : s.IsOrdered) (lt : f < s.frames.size)
    (dead : ¬ s.alive owners f = true) :
    (s.links (f :: owners)).Perm (f :: s.links ((s.parent? f).toList ++ owners)) := by
  have own : (f :: s.live ((s.parent? f).toList ++ owners)).filterMap s.parent? =
      (s.parent? f).toList ++ (s.live ((s.parent? f).toList ++ owners)).filterMap s.parent? := by
    rw [List.filterMap_cons]
    cases s.parent? f <;> rfl
  have parents := ((h.live_cons_perm lt dead).filterMap s.parent?).append_left owners
  rw [own] at parents
  rw [links, links, List.cons_append, List.append_assoc]
  exact .cons f (parents.trans (List.perm_append_comm_assoc ..))

/-- The first handle on a frame brings the frame, with one handle on it. -/
theorem IsOrdered.cells_cons (h : s.IsOrdered) (there : s.frames[f]? = some frame)
    (dead : ¬ s.alive owners f = true) :
    s.cells (f :: owners) =
      Function.update (s.cells (frame.parent.toList ++ owners)) f (some ⟨1, frame⟩) := by
  have lt : f < s.frames.size := (Array.getElem?_eq_some_iff.mp there).1
  have parent : s.parent? f = frame.parent := by rw [parent?, there]; rfl
  have links := h.links_cons_perm lt dead
  have dead := h.dead_of_parent dead
  rw [parent] at links dead
  funext g
  by_cases same : g = f
  · subst same
    have none : (s.links (frame.parent.toList ++ owners)).count g = 0 :=
      List.count_eq_zero.mpr fun mem => dead (h.mem_links.mp mem)
    rw [Function.update_self, cells_of_alive there (alive_of_mem List.mem_cons_self),
      links.count_eq, List.count_cons_self, none]
  · have alive : s.alive (f :: owners) g = s.alive (frame.parent.toList ++ owners) g := by
      rw [Bool.eq_iff_iff, h.alive_cons, or_iff_right same, parent]
    rw [Function.update_of_ne same, cells_apply, cells_apply, alive, links.count_eq,
      List.count_cons_of_ne (Ne.symm same)]

/-! ### Changes -/

/-- To give up a handle is to count it no more. -/
theorem IsOrdered.release_cells (h : s.IsOrdered) (lt : f < s.frames.size) :
    (s.cells (f :: owners)).release f = s.cells owners := by
  induction f using Nat.strongRecOn with
  | ind f ih =>
      by_cases alive : s.alive owners f = true
      · -- others keep the frame
        obtain ⟨n, count⟩ : ∃ n, (s.links owners).count f = n + 1 :=
          Nat.exists_eq_add_one.mpr (List.count_pos_iff.mpr (h.mem_links.mpr alive))
        rw [← retain_cells alive]
        exact Cells.release_retain (count ▸ cells_of_alive (Array.getElem?_eq_getElem lt) alive)
      · -- the frame is freed, and gives up the handle on its parent
        have there : s.frames[f]? = some s.frames[f] := Array.getElem?_eq_getElem lt
        have parent : s.parent? f = s.frames[f].parent := by rw [parent?, there]; rfl
        have gone : s.cells (s.frames[f].parent.toList ++ owners) f = none :=
          if_neg (parent ▸ h.dead_of_parent alive)
        rw [h.cells_cons there alive,
          Cells.release_last gone fun p child => h f p (parent.trans child)]
        cases child : s.frames[f].parent with
        | none => rfl
        | some p =>
            have below : p < f := h f p (parent.trans child)
            exact ih p below (Nat.lt_trans below lt)

/-- The handles on frames that were there are the same in a store that has grown. -/
theorem Extends.links_eq (h : s.Extends t) (held : ∀ o ∈ owners, o < s.frames.size) :
    t.alive owners = s.alive owners ∧ t.links owners = s.links owners := by
  have alive : t.alive owners = s.alive owners :=
    funext fun f => Bool.eq_iff_iff.mpr (h.alive_iff held)
  have live : t.live owners = s.live owners := by
    obtain ⟨more, size⟩ := Nat.exists_eq_add_of_le h.size
    have none : ((List.range more).map (s.frames.size + ·)).filter (s.alive owners) = [] := by
      refine List.filter_eq_nil_iff.mpr fun f mem alive => ?_
      obtain ⟨n, -, rfl⟩ := List.mem_map.mp mem
      exact Nat.not_lt_of_le (Nat.le_add_right _ n) (lt_of_alive held alive)
    rw [Store.live, Store.live, alive, size, List.range_add, List.filter_append, none,
      List.append_nil]
  refine ⟨alive, ?_⟩
  rw [links, links, live]
  exact congrArg _ (List.filterMap_congr fun f mem => h.parent f (mem_live.mp mem).1)

theorem extends_modify (s : Store) (f : FrameId)
    (change : List (String × Value) → List (String × Value)) : s.Extends (s.modify f change) :=
  ⟨Nat.le_of_eq (size_modify change).symm, fun _ _ => parent?_modify change⟩

theorem modify_cells (held : ∀ o ∈ owners, o < s.frames.size) (f : FrameId)
    (change : List (String × Value) → List (String × Value)) :
    (s.cells owners).modify f change = (s.modify f change).cells owners := by
  obtain ⟨alive, links⟩ := (s.extends_modify f change).links_eq held
  funext g
  rw [Cells.modify, cells_apply (s.modify f change), alive, links]
  by_cases same : g = f
  · subst same
    rw [Function.update_self, cells_apply, frames_modify]
    cases s.frames[g]? <;> cases s.alive owners g <;> rfl
  · rw [Function.update_of_ne same, cells_apply, frames_modify_of_ne change same]

/-- Nobody has a handle on a frame before it is made. -/
theorem cells_alloc (held : ∀ o ∈ owners, o < s.frames.size) (parent : Option FrameId) :
    (s.alloc parent).1.cells owners = s.cells owners := by
  obtain ⟨alive, links⟩ := (s.widens_alloc parent).toExtends.links_eq held
  funext f
  rw [cells_apply, cells_apply, alive, links]
  by_cases lives : s.alive owners f = true
  · rw [frames_alloc_of_lt parent (lt_of_alive held lives)]
  · rw [if_neg lives, if_neg lives]

/-- A frame that is made takes the handle on its parent, and has one handle on it. -/
theorem alloc_cells {parent : Option FrameId} (h : (s.alloc parent).1.IsOrdered)
    (held : ∀ o ∈ owners, o < s.frames.size)
    (alive : ∀ p, parent = some p → s.alive owners p = true) :
    (s.cells owners).alloc s.frames.size parent =
      (s.alloc parent).1.cells (s.frames.size :: owners) := by
  have there : (s.alloc parent).1.frames[s.frames.size]? = some ⟨[], parent⟩ :=
    Array.getElem?_push_size
  have new : ¬ (s.alloc parent).1.alive owners s.frames.size = true := by
    rw [((s.widens_alloc parent).toExtends.links_eq held).1]
    exact fun alive => Nat.lt_irrefl _ (lt_of_alive held alive)
  rw [h.cells_cons there new, Cells.alloc]
  cases parent with
  | none => exact congrArg (Function.update · _ _) (cells_alloc held none).symm
  | some p =>
      have held' : ∀ o ∈ p :: owners, o < s.frames.size :=
        List.forall_mem_cons.mpr ⟨lt_of_alive held (alive p rfl), held⟩
      change Function.update ((s.cells owners).retain p) _ _ = _
      rw [retain_cells (alive p rfl), ← cells_alloc held' (some p)]
      rfl

end Store

end PeerScript
