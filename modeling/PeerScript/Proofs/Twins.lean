import PeerScript.Proofs.Alike.Runs
import PeerScript.Proofs.Contents
import PeerScript.Proofs.Globals
import PeerScript.Proofs.Moves.Tasks

/-!
# Runs over different stacks

A script that uses none of the builtins that look at the stack, and none of the reserved names, does
the same whatever lies on the stack.  `Twins` are two machines that hold the same values above what
may be anything, and are alike otherwise; whatever happens to the one happens to the other, and
takes nothing away from below.

The two machines need not have captured the same frames, as a sweep keeps the homes of the functions
that lie below.  This makes no difference because a function is only called while its home is
captured: what both machines keep by `Tends` is enough for a call to find the same frame around it.
-/

set_option autoImplicit false

namespace PeerScript

open Service (reserved)

variable {σ α β : Type}

/-! ## What does not look down -/

/-- The builtins that tell how much lies on the stack, or move what lies there. -/
def Builtin.looksDown : Builtin → Bool
  | .depth | .drop | .dup | .swap | .clear => true
  | _ => false

/-- The names by which scripts reach the stack or the network. -/
def telling : List String := ["depth", "drop", "dup", "swap", "clear"] ++ reserved

/-- Scripts reach the stack or the network by the name. -/
def IsTelling (name : String) : Prop := name ∈ telling

instance : DecidablePred IsTelling := fun name => inferInstanceAs (Decidable (name ∈ telling))

theorem Builtin.isTelling_name {b : Builtin} (looks : b.looksDown = true) : IsTelling b.name := by
  revert looks
  cases b <;> decide

/-- Everything plays its own part. -/
def Pairing.diagonal : Pairing := ⟨Eq, Eq⟩

theorem Pairing.diagonal_isOneToOne : Pairing.diagonal.IsOneToOne where
  frame_left h k := h.trans k.symm
  frame_right h k := h.symm.trans k
  serial_left h k := h.trans k.symm
  serial_right h k := h.symm.trans k

section Diagonal

variable {hidden : String → Prop} {p : Pairing}

mutual

/-- What is alike to something is alike to itself. -/
theorem Value.Alike.diagonal : ∀ {v w : Value}, v.Alike hidden p w → v.Alike hidden .diagonal v
  | .bool _, _, h | .int _, _, h | .float _, _, h | .str _, _, h | .native _, _, h => by
      cases h
      constructor
  | .list _, _, h => by
      cases h with
      | list items => exact .list items.diagonal
  | .closure _ _ home, _, h => by
      cases h with
      | closure body _ =>
          cases home with
          | none => exact .closure body.diagonal .none
          | some f => exact .closure body.diagonal (.some rfl)
  | .handle .., _, h => by
      cases h with
      | handle _ fields => exact .handle rfl fields.diagonal
  | .object _, _, h => nomatch h
termination_by structural v => v

theorem Value.AllAlike.diagonal : ∀ {vs ws : List Value}, Value.AllAlike hidden p vs ws →
    Value.AllAlike hidden .diagonal vs vs
  | [], _, _ => .nil
  | _ :: _, _, h => by
      cases h with
      | cons first rest => exact .cons first.diagonal rest.diagonal
termination_by structural vs => vs

theorem Tree.Alike.diagonal : ∀ {t u : Tree}, t.Alike hidden p u → t.Alike hidden .diagonal t
  | .literal _, _, h => by
      cases h with
      | literal value => exact .literal value.diagonal
  | .reference _, _, h => by
      cases h with
      | reference shown => exact .reference shown
  | .call .., _, h => by
      cases h with
      | call shown args => exact .call shown args.diagonal
termination_by structural t => t

theorem Tree.AllAlike.diagonal : ∀ {ts us : List Tree}, Tree.AllAlike hidden p ts us →
    Tree.AllAlike hidden .diagonal ts ts
  | [], _, _ => .nil
  | _ :: _, _, h => by
      cases h with
      | cons first rest => exact .cons first.diagonal rest.diagonal
termination_by structural ts => ts

end

end Diagonal

/-- A tree of a script that uses no telling names. -/
structure Tree.IsCalm (t : Tree) : Prop where
  plain : t.Alike IsTelling .diagonal t
  source : t.IsSource

/-- A value that does not look down when it is called. -/
structure Value.IsCalm (v : Value) : Prop where
  plain : v.Alike IsTelling .diagonal v
  native : ∀ b, v = .native b → b.looksDown = false
  body : ∀ params body home, v = .closure params body home → body.IsSource

/-- Calm values are good in every store. -/
def Calm : Store → Value → Prop := fun _ v => v.IsCalm

theorem lasting_calm : Lasting Calm := fun _ _ _ _ calm => calm

namespace Value

variable {v : Value} {vs : List Value}

/-- What cannot be called does not look down. -/
theorem isCalm_of_inert (plain : v.Alike IsTelling .diagonal v) (inert : v.isInvocable = false) :
    v.IsCalm where
  plain := plain
  native b same := by
    rw [same] at inert
    exact nomatch inert
  body params body home same := by
    rw [same] at inert
    exact nomatch inert

theorem IsCalm.bodyCalm {params : List String} {body : Tree} {home : Option FrameId}
    (h : (Value.closure params body home).IsCalm) : body.IsCalm where
  plain := by
    cases h.plain with
    | closure plain _ => exact plain
  source := h.body params body home rfl

theorem allAlike_of_calm (calm : ∀ v ∈ vs, v.IsCalm) : Value.AllAlike IsTelling .diagonal vs vs :=
  allAlike_iff.mpr (List.forall₂_same.mpr fun v mem => (calm v mem).plain)

/-- What calm values are written as does not depend on objects. -/
theorem IsCalm.encode_eq (h : v.IsCalm) {e e' : Encoder} (registry : e.registry = e'.registry) :
    e.encode v = e'.encode v := by
  rw [Encoder.encode, Encoder.encode, h.plain.value_eq registry]

end Value

namespace Operator

variable {operator : Operator} {v : Value} {vs : List Value}

theorem isCalm_apply (calm : ∀ v ∈ vs, v.IsCalm) (h : operator.apply vs = .ok v) : v.IsCalm := by
  refine Value.isCalm_of_inert ?_ (data_apply h).inert
  have alike := apply_alike Pairing.diagonal_isOneToOne operator (Value.allAlike_of_calm calm)
  rw [h] at alike
  cases alike with
  | ok alike => exact alike

end Operator

/-- Instances of natural types are calm when their fields are made of calm values. -/
theorem Registry.IsNatural.isCalm_decode {registry : Registry} (natural : registry.IsNatural)
    {name : String} {vs : List Value} {serial : Nat} {v : Value} (calm : ∀ v ∈ vs, v.IsCalm)
    (h : registry.decode name vs serial = .ok v) : v.IsCalm := by
  have alike :=
    natural.decode Pairing.diagonal_isOneToOne name (Value.allAlike_of_calm calm) serial serial
  rw [h] at alike
  cases alike with
  | ok alike =>
      refine Value.isCalm_of_inert alike.diagonal ?_
      obtain ⟨kind, fields, rfl⟩ := registry.handle_of_decode h
      rfl

/-! ## Twins -/

/-- What a session stands on: the values that lie below, and the objects. -/
structure Ground (σ : Type) where
  stack : List Value
  world : σ

/-- All values of a machine, and its objects. -/
def Machine.ground (m : Machine σ) : Ground σ := ⟨m.session.stack, m.common.world⟩

/-- Both machines can get hold of the value. -/
structure BothFit (m m' : Machine σ) (v : Value) : Prop where
  left : m.Fits Calm v
  right : m'.Fits Calm v

/-- Machines at one place, with the same values on their stacks above what is below. -/
structure Twins (place : Place) (ground ground' : Ground σ) (m m' : Machine σ) : Prop where
  shared : ∃ above, m.session.stack = above ++ ground.stack ∧
    m'.session.stack = above ++ ground'.stack
  place_left : m.session.place = place
  place_right : m'.session.place = place
  store : m'.common.store = m.common.store
  serial : m'.common.serial = m.common.serial
  world_left : m.common.world = ground.world
  world_right : m'.common.world = ground'.world
  natural : place.registry.IsNatural
  left : m.Tends IsTelling Calm
  right : m'.Tends IsTelling Calm

/-- The same end, with twins and with a result that is right. -/
inductive Parallel (place : Place) (ground ground' : Ground σ)
    (right : Machine σ → Machine σ → α → Prop) :
    EStateM.Result Stop (Machine σ) α → EStateM.Result Stop (Machine σ) α → Prop
  | ok {a : α} {m m' : Machine σ} : Twins place ground ground' m m' → right m m' a →
      Parallel place ground ground' right (.ok a m) (.ok a m')
  | failed (fault : Fault) {m m' : Machine σ} : Twins place ground ground' m m' →
      Parallel place ground ground' right (.error (.failed fault) m) (.error (.failed fault) m')

/-- Nothing is asked of a result. -/
abbrev Quiet : Machine σ → Machine σ → α → Prop := fun _ _ _ => True

namespace Twins

variable {place : Place} {ground ground' : Ground σ} {m m' : Machine σ} {v : Value}
  {vs : List Value}
  {f scope : FrameId}

section

variable (h : Twins place ground ground' m m')

include h

theorem enters_left (enters : place.Enters f) : m.Enters f := by
  have same := h.place_left
  subst same
  exact enters

theorem enters_right (enters : place.Enters f) : m'.Enters f := by
  have same := h.place_right
  subst same
  exact enters

theorem registry_eq : m.session.registry = place.registry ∧ m'.session.registry = place.registry :=
  ⟨congrArg Place.registry h.place_left, congrArg Place.registry h.place_right⟩

theorem ambient_eq : m.session.ambient = place.ambient ∧ m'.session.ambient = place.ambient :=
  ⟨congrArg Place.ambient h.place_left, congrArg Place.ambient h.place_right⟩

theorem depth_eq : m.session.depth = place.depth ∧ m'.session.depth = place.depth :=
  ⟨congrArg Place.depth h.place_left, congrArg Place.depth h.place_right⟩

/-- Everything that lies on the stacks may be called below. -/
theorem raise : Twins place m.ground m'.ground m m' :=
  { h with shared := ⟨[], rfl, rfl⟩, world_left := rfl, world_right := rfl }

theorem withStack (above : List Value) (fits : ∀ v ∈ above ++ ground.stack, m.Fits Calm v)
    (fits' : ∀ v ∈ above ++ ground'.stack, m'.Fits Calm v) :
    Twins place ground ground' (m.withStack (above ++ ground.stack))
      (m'.withStack (above ++ ground'.stack)) where
  shared := ⟨above, rfl, rfl⟩
  place_left := h.place_left
  place_right := h.place_right
  store := h.store
  serial := h.serial
  world_left := h.world_left
  world_right := h.world_right
  natural := h.natural
  left := h.left.withStack fits
  right := h.right.withStack fits'

theorem pushAll (fits : ∀ v ∈ vs, BothFit m m' v) :
    Twins place ground ground' (m.pushAll vs) (m'.pushAll vs) where
  shared := by
    obtain ⟨above, stack, stack'⟩ := h.shared
    refine ⟨vs.reverse ++ above, ?_, ?_⟩
    · rw [List.append_assoc, ← stack]
      rfl
    · rw [List.append_assoc, ← stack']
      rfl
  place_left := h.place_left
  place_right := h.place_right
  store := h.store
  serial := h.serial
  world_left := h.world_left
  world_right := h.world_right
  natural := h.natural
  left := h.left.pushAll fun v mem => (fits v mem).left
  right := h.right.pushAll fun v mem => (fits v mem).right

theorem push (fits : BothFit m m' v) : Twins place ground ground' (m.push v) (m'.push v) :=
  h.pushAll (List.forall_mem_singleton.mpr fits)

theorem bind (fits : BothFit m m' v) (f : FrameId) (name : String) :
    Twins place ground ground' (m.bind f name v) (m'.bind f name v) where
  shared := h.shared
  place_left := h.place_left
  place_right := h.place_right
  store := congrArg (·.set f name v) h.store
  serial := h.serial
  world_left := h.world_left
  world_right := h.world_right
  natural := h.natural
  left := h.left.bind lasting_calm fits.left f name
  right := h.right.bind lasting_calm fits.right f name

theorem numbered (serial : Nat) :
    Twins place ground ground' (m.numbered serial) (m'.numbered serial) where
  shared := h.shared
  place_left := h.place_left
  place_right := h.place_right
  store := h.store
  serial := rfl
  world_left := h.world_left
  world_right := h.world_right
  natural := h.natural
  left := h.left.numbered serial
  right := h.right.numbered serial

/-- Something is printed. -/
theorem printed (lines lines' : List String) : Twins place ground ground'
    { m with common := { m.common with printed := lines } }
    { m' with common := { m'.common with printed := lines' } } where
  shared := h.shared
  place_left := h.place_left
  place_right := h.place_right
  store := h.store
  serial := h.serial
  world_left := h.world_left
  world_right := h.world_right
  natural := h.natural
  left := h.left.narrowed rfl rfl (List.Subset.refl _) rfl
  right := h.right.narrowed rfl rfl (List.Subset.refl _) rfl

/-- A function is made.  The sweeps may differ. -/
theorem capture (enters : place.Enters scope) :
    Twins place ground ground' (m.capture scope) (m'.capture scope) where
  shared := by
    rw [m.stack_capture scope, m'.stack_capture scope]
    exact h.shared
  place_left := (m.place_capture scope).trans h.place_left
  place_right := (m'.place_capture scope).trans h.place_right
  store := by
    rw [m.common_capture scope, m'.common_capture scope]
    exact h.store
  serial := by
    rw [m.common_capture scope, m'.common_capture scope]
    exact h.serial
  world_left := by
    rw [m.common_capture scope]
    exact h.world_left
  world_right := by
    rw [m'.common_capture scope]
    exact h.world_right
  natural := h.natural
  left := (h.left.capture (h.enters_left enters)).1
  right := (h.right.capture (h.enters_right enters)).1

/-- The body of a function runs in a new frame. -/
theorem called {parent : FrameId} (kept : m.Keeps parent) (kept' : m'.Keeps parent)
    {bindings : List (String × Value)} (fits : ∀ b ∈ bindings, BothFit m m' b.2) :
    Twins (place.inFrame m.common.store.frames.size) ground ground'
      ((m.framed parent bindings).enter.hold m.common.store.frames.size)
      ((m'.framed parent bindings).enter.hold m'.common.store.frames.size) where
  shared := h.shared
  place_left := by
    have same := h.place_left
    subst same
    rfl
  place_right := by
    have same := h.place_right
    subst same
    rw [← h.store]
    rfl
  store := by
    change ((m'.common.store.alloc (some parent)).1.setAll _ bindings) = _
    rw [h.store]
    rfl
  serial := h.serial
  world_left := h.world_left
  world_right := h.world_right
  natural := h.natural
  left := h.left.called lasting_calm kept fun b mem => (fits b mem).left
  right := h.right.called lasting_calm kept' fun b mem => (fits b mem).right

/-- The new frame is there even if its function does not run. -/
theorem framed (parent : FrameId) {bindings : List (String × Value)}
    (fits : ∀ b ∈ bindings, BothFit m m' b.2) :
    Twins place ground ground' (m.framed parent bindings) (m'.framed parent bindings) where
  shared := h.shared
  place_left := h.place_left
  place_right := h.place_right
  store := by
    change ((m'.common.store.alloc (some parent)).1.setAll _ bindings) = _
    rw [h.store]
    rfl
  serial := h.serial
  world_left := h.world_left
  world_right := h.world_right
  natural := h.natural
  left := (h.left.framed lasting_calm parent fun b mem => (fits b mem).left).1
  right := (h.right.framed lasting_calm parent fun b mem => (fits b mem).right).1

/-- What has been pushed is taken off again, and nothing else. -/
theorem splitOff :
    ∃ vs, (∀ v ∈ vs, BothFit (m.withStack ground.stack) (m'.withStack ground'.stack) v) ∧
    Run.splitOff ground.stack.length m = .ok vs (m.withStack ground.stack) ∧
    Run.splitOff ground'.stack.length m' = .ok vs (m'.withStack ground'.stack) ∧
    Twins place ground ground' (m.withStack ground.stack) (m'.withStack ground'.stack) := by
  obtain ⟨above, stack, stack'⟩ := h.shared
  have takes : ∀ {m : Machine σ} {below : List Value}, m.session.stack = above ++ below →
      Run.splitOff below.length m = .ok above.reverse (m.withStack below) := by
    intro m below stack
    have length : m.session.stack.length = above.length + below.length := by
      rw [stack, List.length_append]
    rw [Run.splitOff_of_le (by omega), length, Nat.add_sub_cancel, stack, List.take_left,
      List.drop_left]
  refine ⟨above.reverse, fun v mem => ?_, takes stack, takes stack', ?_⟩
  · have among := List.mem_reverse.mp mem
    have fits := h.left.stack v (stack ▸ List.mem_append_left _ among)
    have fits' := h.right.stack v (stack' ▸ List.mem_append_left _ among)
    exact ⟨⟨fits.housed, fits.good⟩, ⟨fits'.housed, fits'.good⟩⟩
  · exact h.withStack [] (fun v mem => h.left.stack v (stack ▸ List.mem_append_right _ mem))
      fun v mem => h.right.stack v (stack' ▸ List.mem_append_right _ mem)

end

/-- What cannot be called, both can get hold of. -/
theorem bothFit (calm : v.IsCalm) (inert : v.isInvocable = false) : BothFit m m' v := by
  have plain : ∀ params body f, v ≠ .closure params body (some f) := by
    intro params body f same
    rw [same] at inert
    exact nomatch inert
  exact ⟨⟨Machine.houses_plain plain, calm⟩, ⟨Machine.houses_plain plain, calm⟩⟩

/-- Both are back from an invocation. -/
theorem back {frame : FrameId} (h : Twins (place.inFrame frame) ground ground' m m') :
    Twins place ground ground' m.letGo.leave m'.letGo.leave where
  shared := h.shared
  place_left := Machine.place_back h.place_left
  place_right := Machine.place_back h.place_right
  store := h.store
  serial := h.serial
  world_left := h.world_left
  world_right := h.world_right
  natural := h.natural
  left := h.left.letGo.leave
  right := h.right.letGo.leave

end Twins

end PeerScript
