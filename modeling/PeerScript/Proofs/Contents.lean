import PeerScript.Proofs.Homes
import PeerScript.Proofs.Sources

/-!
# What a script can get at

A script calls a value, or runs the body of a function that it calls.  What lies in a list or in an
instance it never gets out again.  `Within` says of a value that what a call of it can get at is in
a `Kit`: the builtins, the objects, and the paths to which a body refers and which it calls.

Scripts put nothing together that was not there: operators yield data, and the tree of a text holds
no builtin and no object.
-/

set_option autoImplicit false

namespace PeerScript

variable {σ : Type}

/-- What values and trees may be made of. -/
structure Kit where
  native : Builtin → Prop
  object : Object → Prop
  /-- what a body refers to -/
  path : Path → Prop
  /-- what a body calls -/
  call : Path → Prop

/-- What a head calls is in the kit. -/
def Head.Within (kit : Kit) : Head → Prop
  | .invoke path => kit.call path
  | _ => True

mutual

/-- What a call of a value gets at is in the kit. -/
def Value.Within (kit : Kit) : Value → Prop
  | .closure _ body _ => body.Within kit
  | .native b => kit.native b
  | .object o => kit.object o
  | _ => True

/-- What a run of a tree gets at, names apart, is in the kit. -/
def Tree.Within (kit : Kit) : Tree → Prop
  | .literal v => v.Within kit
  | .reference path => kit.path path
  | .call head args => head.Within kit ∧ Tree.AllWithin kit args

/-- What runs of trees get at is in the kit. -/
def Tree.AllWithin (kit : Kit) : List Tree → Prop
  | [] => True
  | t :: rest => t.Within kit ∧ Tree.AllWithin kit rest

end

/-! ## Data -/

/-- What operators compute with and what they yield. -/
inductive Value.IsData : Value → Prop
  | bool (b : Bool) : IsData (.bool b)
  | int (i : Int64) : IsData (.int i)
  | float (x : Float) : IsData (.float x)
  | str (s : String) : IsData (.str s)
  | list (items : List Value) : IsData (.list items)

namespace Value.IsData

variable {v : Value}

theorem within (data : v.IsData) (kit : Kit) : v.Within kit := by
  cases data <;> simp only [Value.Within]

/-- Data cannot be called. -/
theorem inert (data : v.IsData) : v.isInvocable = false := by
  cases data <;> rfl

end Value.IsData

namespace Operator

variable {operator : Operator} {a b v : Value} {vs : List Value}

theorem data_exactly {n : Int} (h : exactly n = .ok v) : v.IsData := by
  unfold exactly at h
  split at h <;> cases h
  exact .int _

theorem data_arithmetic (h : arithmetic operator a b = .ok v) : v.IsData := by
  unfold arithmetic at h
  split at h
  · unfold integer at h
    dsimp only at h
    repeat' split at h
    all_goals first | exact data_exactly h | exact nomatch h
  · split at h
    · unfold floating at h
      split at h <;> cases h <;> exact .float _
    · exact nomatch h

theorem data_compare (h : compare operator a b = .ok v) : v.IsData := by
  unfold compare at h
  split at h <;> cases h <;> exact .bool _

theorem data_applyOne (h : operator.applyOne a = .ok v) : v.IsData := by
  unfold applyOne at h
  split at h
  case h_1 =>
    cases h
    exact .bool _
  case h_2 => exact data_exactly h
  case h_3 =>
    cases h
    exact .float _
  all_goals exact nomatch h

theorem data_sum (h : sum a b = .ok v) : v.IsData := by
  unfold sum at h
  split at h
  · cases h
    exact .str _
  · cases h
    exact .list _
  · exact data_arithmetic h

theorem data_applyTwo (h : operator.applyTwo a b = .ok v) : v.IsData := by
  unfold applyTwo at h
  split at h
  all_goals first
    | exact data_sum h
    | exact data_compare h
    | exact data_arithmetic h
    | exact data_applyOne h
    | (cases h
       exact .bool _)

/-- Operators yield data. -/
theorem data_apply (h : operator.apply vs = .ok v) : v.IsData := by
  unfold apply at h
  split at h
  · exact nomatch h
  · split at h
    · exact data_applyOne h
    · exact data_applyTwo h
    · exact nomatch h

end Operator

/-! ## Scripts -/

/-- All paths that name something are in the kit. -/
def Kit.HasPaths (kit : Kit) : Prop :=
  ∀ path : Path, path.segments ≠ [] → kit.path path ∧ kit.call path

theorem Head.IsSource.within {kit : Kit} (paths : kit.HasPaths) {head : Head} (h : head.IsSource) :
    head.Within kit := by
  cases head with
  | invoke path => exact (paths path h).2
  | _ => exact trivial

section Source

variable {kit : Kit}

mutual

/-- In a value of a script there are only functions to call. -/
theorem Value.IsSource.within (paths : kit.HasPaths) : ∀ {v : Value}, v.IsSource → v.Within kit
  | .bool _, _ | .int _, _ | .float _, _ | .str _, _ | .list _, _ | .handle .., _ => by
      simp only [Value.Within]
  | .native _, h | .object _, h => by
      simp only [Value.IsSource] at h
  | .closure _ body _, h => by
      rw [Value.IsSource] at h
      rw [Value.Within]
      exact h.within paths
termination_by structural v => v

theorem Tree.IsSource.within (paths : kit.HasPaths) : ∀ {t : Tree}, t.IsSource → t.Within kit
  | .literal v, h => by
      rw [Tree.IsSource] at h
      rw [Tree.Within]
      exact h.within paths
  | .reference path, h => by
      rw [Tree.IsSource] at h
      rw [Tree.Within]
      exact (paths path h).1
  | .call _ args, h => by
      rw [Tree.IsSource] at h
      rw [Tree.Within]
      exact ⟨h.1.within paths, h.2.within paths⟩
termination_by structural t => t

theorem Tree.AreSource.within (paths : kit.HasPaths) :
    ∀ {ts : List Tree}, Tree.AreSource ts → Tree.AllWithin kit ts
  | [], _ => trivial
  | _ :: _, h => ⟨h.1.within paths, Tree.AreSource.within paths h.2⟩
termination_by structural ts => ts

end

end Source

/-- The tree of a script without its list of statements. -/
theorem Tree.Within.bare {kit : Kit} {t : Tree} (h : t.Within kit) : t.bare.Within kit := by
  unfold Tree.bare
  split
  · rw [Tree.Within, Tree.AllWithin] at h
    exact h.2.1
  · exact h

/-! ## Frames -/

/-- What can be got at by the names that the frames bind is in the kit. -/
def Store.Within (kit : Kit) (s : Store) : Prop :=
  ∀ f name v, s.local? f name = some v → v.Within kit

namespace Store.Within

variable {kit : Kit} {s : Store}

theorem get? (h : s.Within kit) {f : FrameId} {name : String} {v : Value}
    (found : s.get? f name = some v) : v.Within kit := by
  obtain ⟨g, -, found⟩ := List.exists_of_findSome?_eq_some found
  exact h g name v found

theorem of_frames (h : ∀ frame ∈ s.frames, ∀ b ∈ frame.bindings, b.2.Within kit) :
    s.Within kit := by
  intro f name v found
  rw [local?, bindings] at found
  cases there : s.frames[f]? with
  | none =>
      rw [there] at found
      cases found
  | some frame =>
      rw [there] at found
      obtain ⟨before, after, bindings, -⟩ := List.lookup_eq_some_iff.mp found
      refine h frame (Array.mem_of_getElem? there) (name, v) ?_
      change (frame.bindings : List (String × Value)) = _ at bindings
      rw [bindings]
      exact List.mem_append_right _ List.mem_cons_self

theorem set (h : s.Within kit) (f : FrameId) (name : String) {v : Value} (within : v.Within kit) :
    (s.set f name v).Within kit := by
  intro g other w found
  rcases local?_of_set found with before | ⟨-, rfl⟩
  · exact h g other w before
  · exact within

theorem alloc (h : s.Within kit) (parent : Option FrameId) : (s.alloc parent).1.Within kit := by
  intro g name v found
  rw [local?_alloc] at found
  exact h g name v found

theorem setAll (h : s.Within kit) (f : FrameId) {bindings : List (String × Value)}
    (within : ∀ b ∈ bindings, b.2.Within kit) : (s.setAll f bindings).Within kit := by
  intro g name v found
  rcases local?_of_setAll found with before | ⟨-, b, mem, rfl⟩
  · exact h g name v before
  · exact within b mem

end Store.Within

end PeerScript
