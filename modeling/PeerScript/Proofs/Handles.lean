import PeerScript.Proofs.Counts
import PeerScript.Store.Handles

/-!
# What handles can do

Whoever holds handles can make frames and handles, give handles up and change bindings.  The result
of any sequence of such acts is sound: every frame was made after its parent, and every handle is
one on a frame.  So lookups are what they should be, changed bindings are noticed where they should
be, and a weak handle yields its frame exactly while a strong one keeps it.

That a strong handle keeps the ancestors of its frame is what `Handles` says of frames that stay
where they are.  A `Heap` frees a frame when the last of its counted handles is given up, and
nothing else.  Both do the same: the frames of the heap are those that are alive, and its counts
those of their handles.
-/

set_option autoImplicit false

namespace PeerScript

/-! ## Tables -/

namespace Association

variable {α β : Type} [DecidableEq α] {key : α} {entry : β} {table : List (α × β)}

theorem mem_of_lookup (found : table.lookup key = some entry) : (key, entry) ∈ table := by
  obtain ⟨before, after, rfl, -⟩ := List.lookup_eq_some_iff.mp found
  exact List.mem_append_right _ List.mem_cons_self

theorem erase_of_not_mem (absent : key ∉ table.map (·.1)) : erase key table = table :=
  List.filter_eq_self.mpr fun _ mem =>
    decide_eq_true fun same => absent (same ▸ List.mem_map_of_mem mem)

theorem erase_of_lookup_eq_none (absent : table.lookup key = none) : erase key table = table := by
  refine erase_of_not_mem fun mem => ?_
  obtain ⟨b, among, rfl⟩ := List.mem_map.mp mem
  exact bne_iff_ne.mp (List.lookup_eq_none_iff.mp absent b among) rfl

theorem not_mem_keys_erase : key ∉ (erase key table).map (·.1) := by
  intro mem
  obtain ⟨b, mem, same⟩ := List.mem_map.mp mem
  exact of_decide_eq_true (List.mem_filter.mp mem).2 same

/-- In a table of different keys an entry is one of a key that finds it. -/
theorem mem_entries_iff (different : (table.map (·.1)).Nodup) :
    entry ∈ table.map (·.2) ↔ ∃ key, table.lookup key = some entry := by
  constructor
  · intro mem
    obtain ⟨⟨key, entry⟩, among, rfl⟩ := List.mem_map.mp mem
    obtain ⟨before, after, rfl⟩ := List.append_of_mem among
    refine ⟨key, List.lookup_eq_some_iff.mpr ⟨before, after, rfl, fun b mem => ?_⟩⟩
    rw [List.map_append, List.nodup_append] at different
    exact bne_iff_ne.mpr (different.2.2 _ (List.mem_map_of_mem mem) _ List.mem_cons_self).symm
  · rintro ⟨key, found⟩
    exact List.mem_map_of_mem (mem_of_lookup found)

/-- The entry of a key and the entries of the table without it are the entries of the table. -/
theorem entries_perm (different : (table.map (·.1)).Nodup) (found : table.lookup key = some entry) :
    (table.map (·.2)).Perm (entry :: (erase key table).map (·.2)) := by
  obtain ⟨before, after, rfl, -⟩ := List.lookup_eq_some_iff.mp found
  rw [List.map_append, List.nodup_append, List.map_cons, List.nodup_cons] at different
  obtain ⟨-, ⟨after', -⟩, before'⟩ := different
  have rest : erase key (before ++ (key, entry) :: after) = before ++ after := by
    rw [erase, List.filter_append, List.filter_cons_of_neg (by simp)]
    refine congrArg₂ _ (erase_of_not_mem fun mem => ?_) (erase_of_not_mem after')
    exact before' key mem key List.mem_cons_self rfl
  rw [rest, List.map_append, List.map_append]
  exact List.perm_middle

end Association

/-! ## The heap of counted frames -/

/-- Counted frames with the handles that are held on them. -/
structure Heap where
  cells : Cells
  next : FrameId
  strong : List (String × FrameId)
  weak : List (String × FrameId)

namespace Heap

open Handles (Act)

/-- No frames. -/
def empty : Heap := ⟨fun _ => none, 0, [], []⟩

/-- The frame of a strong handle. -/
def frame? (h : Heap) (name : String) : Option FrameId := h.strong.lookup name

/-- The frame of a weak handle, if it has not been freed. -/
def upgrade? (h : Heap) (name : String) : Option FrameId :=
  (h.weak.lookup name).filter fun f => (h.cells f).isSome

/-- The parent of a frame. -/
def parent? (h : Heap) (f : FrameId) : Option FrameId := (h.cells f).bind fun c => c.frame.parent

/-- Gives a strong handle up. -/
def release (h : Heap) (name : String) : Heap :=
  { h with
    cells := (h.frame? name).elim h.cells h.cells.release
    strong := Association.erase name h.strong }

/-- Names a strong handle that has been taken already, and gives the one up that had the name. -/
def bind (h : Heap) (name : String) (f : FrameId) : Heap :=
  { h.release name with strong := Association.put name f h.strong }

/-- Names a strong handle on a frame. -/
def hold (h : Heap) (name : String) (f : FrameId) : Heap :=
  { h with cells := h.cells.retain f }.bind name f

/-- Names a strong handle on a new frame. -/
def alloc (h : Heap) (name : String) (parent : Option FrameId) : Heap :=
  { h with cells := h.cells.alloc h.next parent, next := h.next + 1 }.bind name h.next

/-- Names a weak handle on a frame. -/
def watch (h : Heap) (name : String) (f : FrameId) : Heap :=
  { h with weak := Association.put name f h.weak }

/-- Changes the bindings of a frame. -/
def modify (h : Heap) (change : List (String × Value) → List (String × Value))
    (f : FrameId) : Heap :=
  { h with cells := h.cells.modify f change }

/-- The heap after an act. -/
def step (h : Heap) : Act → Heap
  | .new made => h.alloc made none
  | .child name made => (h.frame? name).elim h fun f => h.alloc made (some f)
  | .clone name made => (h.frame? name).elim h (h.hold made)
  | .drop name => h.release name
  | .downgrade name made => (h.frame? name).elim h (h.watch made)
  | .upgrade weak made => (h.upgrade? weak).elim h (h.hold made)
  | .parent name made => ((h.frame? name).bind h.parent?).elim h (h.hold made)
  | .set name key value => (h.frame? name).elim h (h.modify (Association.put key value))
  | .remove name key => (h.frame? name).elim h (h.modify (Association.erase key))

/-- What an act answers that changes bindings. -/
def replaced? (h : Heap) : Act → Option Value
  | .set name key _ | .remove name key =>
      (h.frame? name).bind fun f => (h.cells f).bind fun c => c.frame.bindings.lookup key
  | _ => none

/-- The heap after acts. -/
def run (h : Heap) (acts : List Act) : Heap := acts.foldl step h

end Heap

/-! ## Sound handles -/

namespace Handles

variable {h : Handles} {name made weak key : String} {f p : FrameId} {a : Act} {acts : List Act}

/-- The frames on which strong handles are held. -/
def owners (h : Handles) : List FrameId := h.strong.map (·.2)

/-- Every frame was made after its parent, and every strong handle has a name of its own and a
frame. -/
structure IsSound (h : Handles) : Prop where
  ordered : h.store.IsOrdered
  named : (h.strong.map (·.1)).Nodup
  held : ∀ o ∈ h.owners, o < h.store.frames.size

theorem mem_owners (found : h.frame? name = some f) : f ∈ h.owners :=
  List.mem_map_of_mem (Association.mem_of_lookup found)

theorem alive_of_frame? (found : h.frame? name = some f) : h.alive f = true :=
  Store.alive_of_mem (mem_owners found)

theorem upgrade?_eq_some_iff :
    h.upgrade? weak = some f ↔ h.weak.lookup weak = some f ∧ h.alive f = true := by
  rw [upgrade?, Option.filter_eq_some_iff]

namespace IsSound

theorem empty : Handles.empty.IsSound where
  ordered _ _ child := absurd child (Option.some_ne_none _).symm
  named := .nil
  held _ mem := absurd mem List.not_mem_nil

/-- A frame is alive while a handle on it or on one of its descendants is there. -/
theorem alive_iff (sound : h.IsSound) :
    h.alive f = true ↔ ∃ name o, h.frame? name = some o ∧ h.store.Descends o f := by
  have owned : ∀ o, o ∈ h.owners ↔ ∃ name, h.frame? name = some o := fun o =>
    Association.mem_entries_iff sound.named
  rw [alive, Store.alive_iff]
  constructor
  · rintro ⟨o, owns, above⟩
    obtain ⟨name, found⟩ := (owned o).mp owns
    exact ⟨name, o, found, sound.ordered.mem_chain_iff.mp above⟩
  · rintro ⟨name, o, found, path⟩
    exact ⟨o, mem_owners found, sound.ordered.mem_chain_iff.mpr path⟩

theorem release (sound : h.IsSound) (name : String) : (h.release name).IsSound where
  ordered := sound.ordered
  named := sound.named.sublist (List.filter_sublist.map _)
  held o mem := sound.held o ((List.filter_sublist.map _).mem mem)

theorem hold (sound : h.IsSound) (lt : f < h.store.frames.size) : (h.hold made f).IsSound where
  ordered := sound.ordered
  named := List.nodup_cons.mpr ⟨Association.not_mem_keys_erase, (sound.release made).named⟩
  held := List.forall_mem_cons.mpr ⟨lt, (sound.release made).held⟩

theorem lt_of_alive (sound : h.IsSound) (alive : h.alive f = true) : f < h.store.frames.size :=
  Store.lt_of_alive sound.held alive

theorem grown (sound : h.IsSound) {s : Store} (ordered : s.IsOrdered) (grows : h.store.Extends s) :
    IsSound { h with store := s } where
  ordered := ordered
  named := sound.named
  held o mem := Nat.lt_of_lt_of_le (sound.held o mem) grows.size

theorem ordered_alloc (sound : h.IsSound) {parent : Option FrameId}
    (alive : ∀ p, parent = some p → h.alive p = true) : (h.store.alloc parent).1.IsOrdered := by
  intro f p child
  by_cases old : f < h.store.frames.size
  · exact sound.ordered f p (((h.store.widens_alloc parent).parent f old).symm.trans child)
  · have lt := Store.lt_of_parent? child
    rw [Store.size_alloc] at lt
    have new : f = h.store.frames.size :=
      Nat.le_antisymm (Nat.le_of_lt_succ lt) (Nat.le_of_not_lt old)
    subst new
    rw [Store.IsChild, Store.parent?_alloc] at child
    exact sound.lt_of_alive (alive p child)

/-- The handles in front of a new frame's own one. -/
theorem allocated (sound : h.IsSound) {parent : Option FrameId}
    (alive : ∀ p, parent = some p → h.alive p = true) :
    IsSound { h with store := (h.store.alloc parent).1 } :=
  sound.grown (sound.ordered_alloc alive) (h.store.widens_alloc parent).toExtends

theorem alloc (sound : h.IsSound) {parent : Option FrameId}
    (alive : ∀ p, parent = some p → h.alive p = true) : (h.alloc made parent).IsSound :=
  (sound.allocated alive).hold
    (Nat.lt_of_lt_of_eq (Nat.lt_succ_self _) (Store.size_alloc parent).symm)

theorem modify (sound : h.IsSound) (f : FrameId)
    (change : List (String × Value) → List (String × Value)) :
    IsSound { h with store := h.store.modify f change } :=
  sound.grown (sound.ordered.congr fun _ => Store.parent?_modify change)
    (h.store.extends_modify f change)

end IsSound

/-! ## Handles and the heap -/

/-- The counts of the handles. -/
def counted (h : Handles) : Heap := ⟨h.store.cells h.owners, h.store.frames.size, h.strong, h.weak⟩

theorem counted_empty : Handles.empty.counted = .empty := rfl

namespace IsSound

theorem counted_cells (sound : h.IsSound) (alive : h.alive f = true) :
    ∃ frame count, h.store.frames[f]? = some frame ∧ h.counted.cells f = some ⟨count, frame⟩ := by
  have there := Array.getElem?_eq_getElem (sound.lt_of_alive alive)
  exact ⟨_, _, there, Store.cells_of_alive there alive⟩

theorem isSome_counted (sound : h.IsSound) (f : FrameId) :
    (h.counted.cells f).isSome = h.alive f := by
  cases alive : h.alive f with
  | false => exact congrArg Option.isSome (if_neg (Bool.eq_false_iff.mp alive))
  | true =>
      obtain ⟨frame, count, -, same⟩ := sound.counted_cells alive
      rw [same, Option.isSome_some]

theorem upgrade?_counted (sound : h.IsSound) (weak : String) :
    h.counted.upgrade? weak = h.upgrade? weak :=
  congrArg (Option.filter · _) (funext sound.isSome_counted)

theorem parent?_counted (sound : h.IsSound) (alive : h.alive f = true) :
    h.counted.parent? f = h.store.parent? f := by
  obtain ⟨frame, count, there, same⟩ := sound.counted_cells alive
  rw [Heap.parent?, same, Store.parent?, there]
  rfl

theorem replaced?_counted (sound : h.IsSound) (a : Act) :
    h.counted.replaced? a = h.replaced? a := by
  have bound : ∀ name key, ((h.counted.frame? name).bind fun f =>
      (h.counted.cells f).bind fun c => c.frame.bindings.lookup key) =
      (h.frame? name).bind (h.store.local? · key) := by
    intro name key
    refine Option.bind_congr fun f found => ?_
    obtain ⟨frame, count, there, same⟩ := sound.counted_cells (alive_of_frame? found)
    rw [same, Store.local?, Store.bindings, there]
    rfl
  cases a with
  | set name key | remove name key => exact bound name key
  | _ => rfl

/-- To give up the handle of a name is not to count it any more. -/
theorem release_owners (sound : h.IsSound) (name : String) (extra : List FrameId) :
    (h.frame? name).elim (h.store.cells (extra ++ h.owners))
    (h.store.cells (extra ++ h.owners)).release =
      h.store.cells (extra ++ (h.release name).owners) := by
  cases found : h.frame? name with
  | none =>
      have same : h.release name = h := by
        rw [Handles.release, Association.erase_of_lookup_eq_none found]
      rw [same]
      rfl
  | some f =>
      have rest : (extra ++ h.owners).Perm (f :: (extra ++ (h.release name).owners)) :=
        ((Association.entries_perm sound.named found).append_left extra).trans List.perm_middle
      rw [Store.cells_perm rest]
      exact sound.ordered.release_cells (sound.held f (mem_owners found))

theorem counted_release (sound : h.IsSound) (name : String) :
    h.counted.release name = (h.release name).counted :=
  congrArg (Heap.mk · _ _ _) (sound.release_owners name [])

/-- A handle that has been counted gets its name. -/
theorem counted_bind (sound : h.IsSound) (name : String) (f : FrameId) :
    Heap.bind { h.counted with cells := h.store.cells (f :: h.owners) } name f =
      (h.hold name f).counted :=
  congrArg (Heap.mk · _ _ _) (sound.release_owners name [f])

theorem counted_hold (sound : h.IsSound) (alive : h.alive f = true) :
    h.counted.hold made f = (h.hold made f).counted := by
  have taken : h.counted.cells.retain f = h.store.cells (f :: h.owners) := Store.retain_cells alive
  rw [Heap.hold, taken]
  exact sound.counted_bind made f

theorem counted_alloc (sound : h.IsSound) {parent : Option FrameId}
    (alive : ∀ p, parent = some p → h.alive p = true) :
    h.counted.alloc made parent = (h.alloc made parent).counted := by
  have taken := Store.alloc_cells (sound.ordered_alloc alive) sound.held alive
  change Heap.bind { h.counted with
    cells := (h.store.cells h.owners).alloc h.store.frames.size parent
    next := h.store.frames.size + 1 } made h.store.frames.size = _
  rw [taken, ← Store.size_alloc parent]
  exact (sound.allocated alive).counted_bind made h.store.frames.size

theorem counted_modify (sound : h.IsSound) (f : FrameId)
    (change : List (String × Value) → List (String × Value)) :
    h.counted.modify change f = counted { h with store := h.store.modify f change } := by
  have changed : h.counted.cells.modify f change = (h.store.modify f change).cells h.owners :=
    Store.modify_cells sound.held f change
  have size : h.store.frames.size = (h.store.modify f change).frames.size :=
    (Store.size_modify change).symm
  exact congrArg₂ (Heap.mk · · h.strong h.weak) changed size

end IsSound

/-! ## Acts -/

/-- An act makes a weak handle of the given name. -/
def Act.Watches (weak : String) : Act → Prop
  | .downgrade _ made => made = weak
  | _ => False

/-- An act changes bindings. -/
def Act.Writes : Act → Prop
  | .set .. | .remove .. => True
  | _ => False

/-- What an act does on handles and on the heap of their counts: nothing, or one change of both. -/
inductive Does (h : Handles) (a : Act) : Handles → Heap → Prop
  | nothing : Does h a h h.counted
  | alloc {made : String} {parent : Option FrameId}
    (alive : ∀ p, parent = some p → h.alive p = true) :
      Does h a (h.alloc made parent) (h.counted.alloc made parent)
  | hold {made : String} {f : FrameId} (alive : h.alive f = true) :
      Does h a (h.hold made f) (h.counted.hold made f)
  | release (name : String) : Does h a (h.release name) (h.counted.release name)
  | watch {made : String} (f : FrameId) (watches : a.Watches made) :
      Does h a (h.watch made f) (h.counted.watch made f)
  | modify (f : FrameId) (change : List (String × Value) → List (String × Value))
    (writes : a.Writes) :
      Does h a { h with store := h.store.modify f change } (h.counted.modify change f)

theorem IsSound.does (sound : h.IsSound) (a : Act) : h.Does a (h.step a) (h.counted.step a) := by
  have frame? : h.counted.frame? = h.frame? := rfl
  cases a with
  | new made => exact .alloc nofun
  | child name made =>
      rw [step, Heap.step, frame?]
      cases found : h.frame? name with
      | none => exact .nothing
      | some f => exact .alloc fun p same => Option.some.inj same ▸ alive_of_frame? found
  | clone name made =>
      rw [step, Heap.step, frame?]
      cases found : h.frame? name with
      | none => exact .nothing
      | some f => exact .hold (alive_of_frame? found)
  | drop name => exact .release name
  | downgrade name made =>
      rw [step, Heap.step, frame?]
      cases h.frame? name with
      | none => exact .nothing
      | some f => exact .watch f rfl
  | upgrade weak made =>
      rw [step, Heap.step, sound.upgrade?_counted]
      cases found : h.upgrade? weak with
      | none => exact .nothing
      | some f => exact .hold (upgrade?_eq_some_iff.mp found).2
  | parent name made =>
      have same : (h.frame? name).bind h.counted.parent? = (h.frame? name).bind h.store.parent? :=
        Option.bind_congr fun f found => sound.parent?_counted (alive_of_frame? found)
      rw [step, Heap.step, frame?, same]
      cases found : (h.frame? name).bind h.store.parent? with
      | none => exact .nothing
      | some p =>
          obtain ⟨f, holds, child⟩ := Option.bind_eq_some_iff.mp found
          exact .hold (sound.ordered.alive_parent (alive_of_frame? holds) child)
  | set name key value =>
      rw [step, Heap.step, frame?]
      cases h.frame? name with
      | none => exact .nothing
      | some f => exact .modify f _ trivial
  | remove name key =>
      rw [step, Heap.step, frame?]
      cases h.frame? name with
      | none => exact .nothing
      | some f => exact .modify f _ trivial

namespace Does

variable {h' : Handles} {heap : Heap}

theorem isSound (does : h.Does a h' heap) (sound : h.IsSound) : h'.IsSound := by
  cases does with
  | nothing => exact sound
  | alloc alive => exact sound.alloc alive
  | hold alive => exact sound.hold (sound.lt_of_alive alive)
  | release name => exact sound.release name
  | watch => exact ⟨sound.ordered, sound.named, sound.held⟩
  | modify f change => exact sound.modify f change

/-- The heap still has the counts of the handles. -/
theorem counted (does : h.Does a h' heap) (sound : h.IsSound) : heap = h'.counted := by
  cases does with
  | nothing | watch => rfl
  | alloc alive => exact sound.counted_alloc alive
  | hold alive => exact sound.counted_hold alive
  | release name => exact sound.counted_release name
  | modify f change => exact sound.counted_modify f change

/-- A weak handle of another name stays what it is. -/
theorem weak_eq (does : h.Does a h' heap) (other : ¬ a.Watches weak) :
    h'.weak.lookup weak = h.weak.lookup weak := by
  cases does with
  | @watch made f watches =>
      have differs : weak ≠ made := fun same => other (same ▸ watches)
      exact (Association.lookup_put made weak f h.weak).trans (if_neg differs)
  | _ => rfl

/-- Without a change of bindings those of all frames are left alone, and new frames have none. -/
theorem local?_eq (does : h.Does a h' heap) (quiet : ¬ a.Writes) (f : FrameId) (key : String) :
    h'.store.local? f key = h.store.local? f key := by
  cases does with
  | alloc => exact Store.local?_alloc h.store _ f key
  | modify _ _ writes => exact absurd writes quiet
  | _ => rfl

end Does

/-! ## Runs -/

theorem IsSound.step (sound : h.IsSound) (a : Act) : (h.step a).IsSound :=
  (sound.does a).isSound sound

theorem IsSound.run (sound : h.IsSound) (acts : List Act) : (h.run acts).IsSound := by
  induction acts generalizing h with
  | nil => exact sound
  | cons a rest ih => exact ih (sound.step a)

theorem IsSound.counted_run (sound : h.IsSound) (acts : List Act) :
    h.counted.run acts = (h.run acts).counted := by
  induction acts generalizing h with
  | nil => rfl
  | cons a rest ih =>
      change (h.counted.step a).run rest = _
      rw [(sound.does a).counted sound]
      exact ih (sound.step a)

theorem IsSound.weak_run (sound : h.IsSound) (others : ∀ a ∈ acts, ¬ a.Watches weak) :
    (h.run acts).weak.lookup weak = h.weak.lookup weak := by
  induction acts generalizing h with
  | nil => rfl
  | cons a rest ih =>
      obtain ⟨other, others⟩ := List.forall_mem_cons.mp others
      exact (ih (sound.step a) others).trans ((sound.does a).weak_eq other)

/-- A weak handle yields its own frame, exactly while a strong handle on that or on one of its
descendants is there. -/
theorem IsSound.upgrade?_run (sound : h.IsSound) (found : h.frame? name = some f)
    (others : ∀ a ∈ acts, ¬ a.Watches weak) {g : FrameId} :
    ((h.step (.downgrade name weak)).run acts).upgrade? weak = some g ↔
      g = f ∧ ∃ other o, ((h.step (.downgrade name weak)).run acts).frame? other = some o ∧
        ((h.step (.downgrade name weak)).run acts).store.Descends o f := by
  have watched := sound.step (.downgrade name weak)
  have own : ((h.step (.downgrade name weak)).run acts).weak.lookup weak = some f := by
    rw [watched.weak_run others, Handles.step, found]
    exact (Association.lookup_put weak weak f h.weak).trans (if_pos rfl)
  rw [upgrade?_eq_some_iff, own, Option.some_inj, eq_comm, and_congr_right_iff]
  rintro rfl
  exact (watched.run acts).alive_iff

/-! ## Scopes -/

/-- What lookups are and what acts do, as far as they can be told by lookups. -/
structure IsScoped (h : Handles) : Prop where
  lookups : h.store.Lookups
  set : ∀ name key value f, h.frame? name = some f →
    h.replaced? (.set name key value) = h.store.local? f key ∧
      h.store.Rebinds (h.step (.set name key value)).store f key (some value)
  remove : ∀ name key f, h.frame? name = some f →
    h.replaced? (.remove name key) = h.store.local? f key ∧
      h.store.Rebinds (h.step (.remove name key)).store f key none
  quiet : ∀ a : Act, ¬ a.Writes → ∀ f key,
    (h.step a).store.local? f key = h.store.local? f key
  /-- a weak handle, whatever is done after it was made -/
  upgrade : ∀ name weak f, h.frame? name = some f → ∀ later : List Act,
    (∀ a ∈ later, ¬ a.Watches weak) → let now := (h.step (.downgrade name weak)).run later
    ∀ g, now.upgrade? weak = some g ↔
      g = f ∧ ∃ other o, now.frame? other = some o ∧ now.store.Descends o f

theorem IsSound.isScoped (sound : h.IsSound) : h.IsScoped where
  lookups := sound.ordered.lookups
  set name key value f found := by
    rw [replaced?, Handles.step, found]
    exact ⟨rfl, sound.ordered.rebinds_set (sound.held f (mem_owners found)) key value⟩
  remove name key f found := by
    rw [replaced?, Handles.step, found]
    exact ⟨rfl, sound.ordered.rebinds_remove f key⟩
  quiet a := (sound.does a).local?_eq
  upgrade _ _ _ found _ others _ := sound.upgrade?_run found others

/-- **Scopes.**  After any acts the parents have no cycles, a name means what the nearest frame
binds to it that binds it, a changed binding is noticed by the lookups that come to it and by no
others, and a weak handle yields its own frame exactly while a strong handle on that or on one of
its descendants is there.  The heap in which handles are counted has then the same frames and
handles, and gives the same answers. -/
theorem scope_graph (acts : List Act) :
    (Handles.empty.run acts).IsScoped ∧
    Heap.empty.run acts = (Handles.empty.run acts).counted ∧
    (∀ weak, (Heap.empty.run acts).upgrade? weak = (Handles.empty.run acts).upgrade? weak) ∧
    ∀ a, (Heap.empty.run acts).replaced? a = (Handles.empty.run acts).replaced? a := by
  have sound : (Handles.empty.run acts).IsSound := IsSound.empty.run acts
  have same : Heap.empty.run acts = (Handles.empty.run acts).counted :=
    counted_empty ▸ IsSound.empty.counted_run acts
  refine ⟨sound.isScoped, same, ?_, ?_⟩ <;> rw [same]
  · exact sound.upgrade?_counted
  · exact sound.replaced?_counted

end Handles

end PeerScript
