import PeerScript.Proofs.Alike
import PeerScript.Proofs.Marks
import PeerScript.Proofs.Running

/-!
# Other numbers for the same instances

The number of an instance tells it from other instances, and nothing else depends on it.
`renumber ρ` gives every instance the number that `ρ` has for its own; when `ρ` is one to one, what
scripts can find out about values, frames and sessions stays the same, and what they compute has the
other numbers too.
-/

set_option autoImplicit false

namespace PeerScript

variable {σ : Type} {ρ π : Nat → Nat}

/-! ## Values and trees -/

mutual

/-- The value with other numbers. -/
def Value.renumber (ρ : Nat → Nat) : Value → Value
  | .list items => .list (Value.renumberAll ρ items)
  | .closure params body home => .closure params (body.renumber ρ) home
  | .handle kind n fields => .handle kind (ρ n) (Value.renumberAll ρ fields)
  | v => v

/-- The values with other numbers. -/
def Value.renumberAll (ρ : Nat → Nat) : List Value → List Value
  | [] => []
  | v :: rest => v.renumber ρ :: Value.renumberAll ρ rest

/-- The tree with other numbers. -/
def Tree.renumber (ρ : Nat → Nat) : Tree → Tree
  | .literal v => .literal (v.renumber ρ)
  | .reference path => .reference path
  | .call head args => .call head (Tree.renumberAll ρ args)

/-- The trees with other numbers. -/
def Tree.renumberAll (ρ : Nat → Nat) : List Tree → List Tree
  | [] => []
  | t :: rest => t.renumber ρ :: Tree.renumberAll ρ rest

end

@[simp] theorem Value.renumberAll_eq (ρ : Nat → Nat) (vs : List Value) :
    Value.renumberAll ρ vs = vs.map (Value.renumber ρ) := by
  induction vs with
  | nil => rfl
  | cons v vs ih => rw [Value.renumberAll, ih, List.map_cons]

@[simp] theorem Tree.renumberAll_eq (ρ : Nat → Nat) (ts : List Tree) :
    Tree.renumberAll ρ ts = ts.map (Tree.renumber ρ) := by
  induction ts with
  | nil => rfl
  | cons t ts ih => rw [Tree.renumberAll, ih, List.map_cons]

theorem Mark.serial_mem_within {n : Nat} {marks : List Mark} :
    .serial n ∈ marks.map Mark.within ↔ .serial n ∈ marks := by
  rw [List.mem_map]
  constructor
  · rintro ⟨μ, mem, same⟩
    cases μ <;> cases same
    exact mem
  · exact fun mem => ⟨_, mem, rfl⟩

mutual

/-- Only the numbers that there are count. -/
theorem Value.renumber_congr : ∀ {v : Value}, (∀ n, .serial n ∈ v.marks → ρ n = π n) →
    v.renumber ρ = v.renumber π
  | .bool _, _ | .int _, _ | .float _, _ | .str _, _ | .native _, _ | .object _, _ => rfl
  | .list items, h => by
      rw [Value.renumber, Value.renumber, Value.renumberAll_congr h]
  | .closure _ body home, h => by
      rw [Value.renumber, Value.renumber, Tree.renumber_congr fun n mem => h n ?_]
      exact List.mem_append_right _ (Mark.serial_mem_within.mpr mem)
  | .handle _ n fields, h => by
      rw [Value.renumber, Value.renumber, h n List.mem_cons_self,
        Value.renumberAll_congr fun n mem => h n (List.mem_cons_of_mem _ mem)]
termination_by structural v => v

theorem Value.renumberAll_congr : ∀ {vs : List Value},
    (∀ n, .serial n ∈ Value.marksAll vs → ρ n = π n) →
    Value.renumberAll ρ vs = Value.renumberAll π vs
  | [], _ => rfl
  | v :: rest, h => by
      rw [Value.renumberAll, Value.renumberAll,
        Value.renumber_congr fun n mem => h n (List.mem_append_left _ mem),
        Value.renumberAll_congr fun n mem => h n (List.mem_append_right _ mem)]
termination_by structural vs => vs

theorem Tree.renumber_congr : ∀ {t : Tree}, (∀ n, .serial n ∈ t.marks → ρ n = π n) →
    t.renumber ρ = t.renumber π
  | .literal v, h => by rw [Tree.renumber, Tree.renumber, Value.renumber_congr h]
  | .reference _, _ => rfl
  | .call _ args, h => by rw [Tree.renumber, Tree.renumber, Tree.renumberAll_congr h]
termination_by structural t => t

theorem Tree.renumberAll_congr : ∀ {ts : List Tree},
    (∀ n, .serial n ∈ Tree.marksAll ts → ρ n = π n) →
    Tree.renumberAll ρ ts = Tree.renumberAll π ts
  | [], _ => rfl
  | t :: rest, h => by
      rw [Tree.renumberAll, Tree.renumberAll,
        Tree.renumber_congr fun n mem => h n (List.mem_append_left _ mem),
        Tree.renumberAll_congr fun n mem => h n (List.mem_append_right _ mem)]
termination_by structural ts => ts

end

mutual

theorem Value.renumber_id : ∀ v : Value, v.renumber id = v
  | .bool _ | .int _ | .float _ | .str _ | .native _ | .object _ => rfl
  | .list items => by rw [Value.renumber, Value.renumberAll_id]
  | .closure _ body _ => by rw [Value.renumber, Tree.renumber_id]
  | .handle _ _ fields => by rw [Value.renumber, Value.renumberAll_id, id]
termination_by structural v => v

theorem Value.renumberAll_id : ∀ vs : List Value, Value.renumberAll id vs = vs
  | [] => rfl
  | v :: rest => by rw [Value.renumberAll, Value.renumber_id, Value.renumberAll_id]
termination_by structural vs => vs

theorem Tree.renumber_id : ∀ t : Tree, t.renumber id = t
  | .literal v => by rw [Tree.renumber, Value.renumber_id]
  | .reference _ => rfl
  | .call _ args => by rw [Tree.renumber, Tree.renumberAll_id]
termination_by structural t => t

theorem Tree.renumberAll_id : ∀ ts : List Tree, Tree.renumberAll id ts = ts
  | [] => rfl
  | t :: rest => by rw [Tree.renumberAll, Tree.renumber_id, Tree.renumberAll_id]
termination_by structural ts => ts

end

/-- What has only numbers that stay as they are stays as it is. -/
theorem Value.renumber_eq_self {v : Value} (h : ∀ n, .serial n ∈ v.marks → ρ n = n) :
    v.renumber ρ = v := (Value.renumber_congr h).trans v.renumber_id

theorem Value.renumber_of_marks {v : Value} (plain : v.marks = []) : v.renumber ρ = v :=
  Value.renumber_eq_self (by rw [plain]; nofun)

/-! ## What scripts can learn of a value -/

namespace Value

@[simp] theorem typeName_renumber (v : Value) : (v.renumber ρ).typeName = v.typeName := by
  cases v <;> rfl

@[simp] theorem float?_renumber (v : Value) : (v.renumber ρ).float? = v.float? := by
  cases v <;> rfl

@[simp] theorem truthy_renumber (v : Value) : (v.renumber ρ).truthy = v.truthy := by
  cases v with
  | list items => cases items <;> rfl
  | _ => rfl

end Value

mutual

/-- A renumbering that is one to one keeps values apart. -/
theorem Value.same_renumber (inj : ρ.Injective) :
    ∀ v w : Value, (v.renumber ρ).same (w.renumber ρ) = v.same w
  | .bool _, w | .int _, w | .float _, w | .str _, w | .native _, w | .object _, w => by
      cases w <;> simp only [Value.renumber, Value.same]
  | .list items, w => by
      cases w <;> simp only [Value.renumber, Value.same, Value.sameAll_renumber inj items]
  | .closure _ body _, w => by
      cases w <;> simp only [Value.renumber, Value.same, Tree.same_renumber inj body]
  | .handle _ n _, w => by
      cases w <;> simp only [Value.renumber, Value.same]
      rw [Bool.eq_iff_iff, beq_iff_eq, beq_iff_eq, inj.eq_iff]
termination_by structural v => v

theorem Value.sameAll_renumber (inj : ρ.Injective) : ∀ vs ws : List Value,
    Value.sameAll (Value.renumberAll ρ vs) (Value.renumberAll ρ ws) = Value.sameAll vs ws
  | [], ws => by cases ws <;> simp only [Value.renumberAll, Value.sameAll]
  | v :: rest, ws => by
      cases ws <;> simp only [Value.renumberAll, Value.sameAll, Value.same_renumber inj v,
        Value.sameAll_renumber inj rest]
termination_by structural vs => vs

theorem Tree.same_renumber (inj : ρ.Injective) :
    ∀ t u : Tree, (t.renumber ρ).same (u.renumber ρ) = t.same u
  | .literal v, u => by
      cases u <;> simp only [Tree.renumber, Tree.same, Value.same_renumber inj v]
  | .reference _, u => by cases u <;> simp only [Tree.renumber, Tree.same]
  | .call _ args, u => by
      cases u <;> simp only [Tree.renumber, Tree.same, Tree.sameAll_renumber inj args]
termination_by structural t => t

theorem Tree.sameAll_renumber (inj : ρ.Injective) : ∀ ts us : List Tree,
    Tree.sameAll (Tree.renumberAll ρ ts) (Tree.renumberAll ρ us) = Tree.sameAll ts us
  | [], us => by cases us <;> simp only [Tree.renumberAll, Tree.sameAll]
  | t :: rest, us => by
      cases us <;> simp only [Tree.renumberAll, Tree.sameAll, Tree.same_renumber inj t,
        Tree.sameAll_renumber inj rest]
termination_by structural ts => ts

end

mutual

theorem Encoder.value_renumber (e : Encoder) : ∀ v : Value, e.value (v.renumber ρ) = e.value v
  | .bool _ | .int _ | .float _ | .str _ | .native _ | .object _ => rfl
  | .list items => by rw [Value.renumber, value, value, e.values_renumber items]
  | .closure _ body _ => by rw [Value.renumber, value, value, e.tree_renumber body]
  | .handle _ _ fields => by rw [Value.renumber, value, value, e.values_renumber fields]
termination_by structural v => v

theorem Encoder.values_renumber (e : Encoder) :
    ∀ vs : List Value, e.values (Value.renumberAll ρ vs) = e.values vs
  | [] => rfl
  | v :: rest => by
      rw [Value.renumberAll, values, values, e.value_renumber v, e.values_renumber rest]
termination_by structural vs => vs

theorem Encoder.tree_renumber (e : Encoder) : ∀ t : Tree, e.tree (t.renumber ρ) = e.tree t
  | .literal v => by rw [Tree.renumber, tree, tree, e.value_renumber v]
  | .reference _ => rfl
  | .call head args => by
      rw [Tree.renumber]
      cases head <;> simp only [tree, e.trees_renumber args]
termination_by structural t => t

theorem Encoder.trees_renumber (e : Encoder) :
    ∀ ts : List Tree, e.trees (Tree.renumberAll ρ ts) = e.trees ts
  | [] => rfl
  | t :: rest => by
      rw [Tree.renumberAll, trees, trees, e.tree_renumber t, e.trees_renumber rest]
termination_by structural ts => ts

end

mutual

theorem Value.homes_renumber : ∀ v : Value, (v.renumber ρ).homes = v.homes
  | .bool _ | .int _ | .float _ | .str _ | .native _ | .object _ => rfl
  | .list items => by rw [Value.renumber, Value.homes, Value.homes, Value.homesAll_renumber items]
  | .closure _ body _ => by rw [Value.renumber, Value.homes, Value.homes, Tree.homes_renumber body]
  | .handle _ _ fields => by
      rw [Value.renumber, Value.homes, Value.homes, Value.homesAll_renumber fields]
termination_by structural v => v

theorem Value.homesAll_renumber :
    ∀ vs : List Value, Value.homesAll (Value.renumberAll ρ vs) = Value.homesAll vs
  | [] => rfl
  | v :: rest => by
      rw [Value.renumberAll, Value.homesAll, Value.homesAll, Value.homes_renumber v,
        Value.homesAll_renumber rest]
termination_by structural vs => vs

theorem Tree.homes_renumber : ∀ t : Tree, (t.renumber ρ).homes = t.homes
  | .literal v => by rw [Tree.renumber, Tree.homes, Tree.homes, Value.homes_renumber v]
  | .reference _ => rfl
  | .call _ args => by rw [Tree.renumber, Tree.homes, Tree.homes, Tree.homesAll_renumber args]
termination_by structural t => t

theorem Tree.homesAll_renumber :
    ∀ ts : List Tree, Tree.homesAll (Tree.renumberAll ρ ts) = Tree.homesAll ts
  | [] => rfl
  | t :: rest => by
      rw [Tree.renumberAll, Tree.homesAll, Tree.homesAll, Tree.homes_renumber t,
        Tree.homesAll_renumber rest]
termination_by structural ts => ts

end

/-! ## Operators -/

namespace Operator

variable {operator : Operator}

theorem refuse_renumber (operator : Operator) (vs : List Value) :
    operator.refuse (vs.map (Value.renumber ρ)) = operator.refuse vs := by
  have names : (vs.map (Value.renumber ρ)).map Value.typeName = vs.map Value.typeName := by
    simp
  rw [refuse, refuse, names]

/-- A result that carries no number is the same with other numbers. -/
theorem map_renumber_of_marks {x : Except Fault Value} (plain : ∀ v, x = .ok v → v.marks = []) :
    x.map (Value.renumber ρ) = x := by
  cases x with
  | error fault => rfl
  | ok v => exact congrArg Except.ok (Value.renumber_of_marks (plain v rfl))

theorem arithmetic_renumber (operator : Operator) (a b : Value) :
    arithmetic operator (a.renumber ρ) (b.renumber ρ) =
      (arithmetic operator a b).map (Value.renumber ρ) := by
  rw [map_renumber_of_marks fun v => arithmetic_marks]
  cases a <;> cases b <;> rfl

theorem sum_renumber (a b : Value) :
    sum (a.renumber ρ) (b.renumber ρ) = (sum a b).map (Value.renumber ρ) := by
  have numbers := arithmetic_renumber (ρ := ρ) add a b
  cases a with
  | list items =>
      cases b with
      | list others => simp [sum, Value.renumber, Except.map]
      | _ => exact numbers
  | str s =>
      cases b with
      | str t => rfl
      | _ => exact numbers
  | _ => cases b <;> exact numbers

theorem compare_renumber (operator : Operator) (a b : Value) :
    compare operator (a.renumber ρ) (b.renumber ρ) =
      (compare operator a b).map (Value.renumber ρ) := by
  have orders : ordering? (a.renumber ρ) (b.renumber ρ) = ordering? a b := by
    cases a <;> cases b <;> rfl
  have refused := refuse_renumber (ρ := ρ) operator [a, b]
  rw [map_renumber_of_marks fun v => compare_marks, compare, compare, orders]
  split
  · exact congrArg Except.error refused
  · rfl
  · rfl

theorem applyOne_renumber (operator : Operator) (a : Value) :
    applyOne operator (a.renumber ρ) = (applyOne operator a).map (Value.renumber ρ) := by
  rw [map_renumber_of_marks fun v => applyOne_marks]
  cases operator
  case not => rw [applyOne, applyOne, Value.truthy_renumber]
  case neg => cases a <;> rfl
  all_goals rfl

theorem applyTwo_renumber (inj : ρ.Injective) (operator : Operator) (a b : Value) :
    applyTwo operator (a.renumber ρ) (b.renumber ρ) =
      (applyTwo operator a b).map (Value.renumber ρ) := by
  have same : (a.renumber ρ == b.renumber ρ) = (a == b) := Value.same_renumber inj a b
  cases operator
  case and | or =>
    simp only [applyTwo, Value.truthy_renumber, Except.map, Value.renumber]
  case eq | ne => simp only [applyTwo, same, Except.map, Value.renumber]
  case lt | le | gt | ge => exact compare_renumber _ a b
  case add => exact sum_renumber a b
  case sub | mul | div | rem => exact arithmetic_renumber _ a b
  case not => exact applyOne_renumber not a
  case neg => exact applyOne_renumber neg a

/-- Operators do not see numbers. -/
theorem apply_renumber (inj : ρ.Injective) (operator : Operator) (operands : List Value) :
    operator.apply (operands.map (Value.renumber ρ)) =
      (operator.apply operands).map (Value.renumber ρ) := by
  unfold apply
  rw [List.length_map]
  split
  · rfl
  · rcases operands with _ | ⟨a, _ | ⟨b, _ | ⟨c, rest⟩⟩⟩
    · rfl
    · exact applyOne_renumber operator a
    · exact applyTwo_renumber inj operator a b
    · rfl

end Operator

/-! ## Registered types -/

/-- The decoder of a type cannot tell the numbers of instances from others. -/
def WireType.IsUniform (type : WireType) : Prop :=
  ∀ ρ : Nat → Nat, ρ.Injective → ∀ vs, type.decode (vs.map (Value.renumber ρ)) =
    (type.decode vs).map (List.map (Value.renumber ρ))

/-- All types that a name makes are uniform. -/
def Registry.IsUniform (r : Registry) : Prop :=
  ∀ name type, r.named? name = some type → type.IsUniform

theorem Registry.IsUniform.decode {r : Registry} (uniform : r.IsUniform) (inj : ρ.Injective)
    (name : String) (vs : List Value) (n : Nat) :
    r.decode name (vs.map (Value.renumber ρ)) (ρ n) =
      (r.decode name vs n).map (Value.renumber ρ) := by
  cases known : r.named? name with
  | none =>
      simp only [Registry.decode, known]
      rfl
  | some type =>
      simp only [Registry.decode, known, uniform name type known ρ inj vs]
      cases type.decode vs with
      | error reason => rfl
      | ok fields => simp [Except.map, Value.renumber]

theorem Value.component_renumber (v : Value) :
    (v.renumber ρ).component = v.component.map (Value.renumber ρ) := by
  rw [component, component, float?_renumber, typeName_renumber]
  cases v.float? <;> rfl

theorem Value.components_renumber (vs : List Value) :
    (vs.map (Value.renumber ρ)).mapM Value.component =
      (vs.mapM Value.component).map (List.map (Value.renumber ρ)) := by
  induction vs with
  | nil => rfl
  | cons v vs ih =>
      rw [List.map_cons, List.mapM_cons, List.mapM_cons, ih, Value.component_renumber]
      cases v.component with
      | error fault => rfl
      | ok w => cases vs.mapM Value.component <;> rfl

theorem WireType.vector3_isUniform : WireType.vector3.IsUniform := by
  intro ρ _ vs
  have components := Value.components_renumber (ρ := ρ) vs
  rcases vs with _ | ⟨x, _ | ⟨y, _ | ⟨z, _ | ⟨w, rest⟩⟩⟩⟩
  case cons.cons.cons.nil => exact components
  all_goals simp [WireType.vector3, Except.map]

theorem Registry.standard_isUniform : Registry.standard.IsUniform := by
  intro name type known
  have found : (Association.put WireType.vector3.name WireType.vector3 []).lookup name =
      some type := known
  rw [Association.lookup_put] at found
  split at found
  · cases found
    exact WireType.vector3_isUniform
  · exact nomatch found

/-! ## Frames -/

namespace Store

/-- The bindings with other numbers. -/
def renumberBindings (ρ : Nat → Nat) (bindings : List (String × Value)) : List (String × Value) :=
  bindings.map fun b => (b.1, b.2.renumber ρ)

/-- The frames with other numbers in what they bind. -/
def renumber (ρ : Nat → Nat) (s : Store) : Store :=
  ⟨s.frames.map fun frame => { frame with bindings := renumberBindings ρ frame.bindings }⟩

variable {s : Store} {f : FrameId} {name : String}

@[simp] theorem size_renumber (s : Store) : (s.renumber ρ).frames.size = s.frames.size :=
  Array.size_map

theorem frames_renumber (s : Store) (f : FrameId) : (s.renumber ρ).frames[f]? =
    s.frames[f]?.map fun frame => { frame with bindings := renumberBindings ρ frame.bindings } :=
  Array.getElem?_map

@[simp] theorem parent?_renumber (s : Store) (f : FrameId) :
    (s.renumber ρ).parent? f = s.parent? f := by
  rw [parent?, parent?, frames_renumber]
  cases s.frames[f]? <;> rfl

@[simp] theorem bindings_renumber (s : Store) (f : FrameId) :
    (s.renumber ρ).bindings f = renumberBindings ρ (s.bindings f) := by
  rw [bindings, bindings, frames_renumber]
  cases s.frames[f]? <;> rfl

@[simp] theorem chain_renumber (s : Store) (f : FrameId) : (s.renumber ρ).chain f = s.chain f := by
  induction f using Nat.strongRecOn with
  | ind f ih =>
      rw [chain, chain, parent?_renumber]
      split
      · rfl
      · split
        · rw [ih _ ‹_›]
        · rfl

theorem lookup_renumberBindings (bindings : List (String × Value)) (name : String) :
    (renumberBindings ρ bindings).lookup name = (bindings.lookup name).map (Value.renumber ρ) := by
  induction bindings with
  | nil => rfl
  | cons b rest ih =>
      rw [renumberBindings, List.map_cons, List.lookup_cons, List.lookup_cons]
      cases name == b.1 with
      | true => rfl
      | false => exact ih

theorem get?_renumber (s : Store) (f : FrameId) (name : String) :
    (s.renumber ρ).get? f name = (s.get? f name).map (Value.renumber ρ) := by
  rw [get?, get?, chain_renumber]
  induction s.chain f with
  | nil => rfl
  | cons g rest ih =>
      rw [List.findSome?_cons, List.findSome?_cons, ih, local?, local?, bindings_renumber,
        lookup_renumberBindings]
      cases (s.bindings g).lookup name <;> rfl

@[simp] theorem alive_renumber (s : Store) (owners : List FrameId) (f : FrameId) :
    (s.renumber ρ).alive owners f = s.alive owners f := by
  simp only [alive, chain_renumber]

@[simp] theorem homes_renumber (s : Store) (owners : List FrameId) :
    (s.renumber ρ).homes owners = s.homes owners := by
  have bound : ∀ f, Value.homesAll (((s.renumber ρ).bindings f).map (·.2)) =
      Value.homesAll ((s.bindings f).map (·.2)) := by
    intro f
    rw [bindings_renumber, renumberBindings, List.map_map,
      ← Value.homesAll_renumber (ρ := ρ) ((s.bindings f).map (·.2)), Value.renumberAll_eq,
      List.map_map]
    rfl
  have chains : (s.renumber ρ).chain = s.chain := funext s.chain_renumber
  simp only [homes, chains, bound]

theorem renumberBindings_put (name : String) (v : Value) (bindings : List (String × Value)) :
    renumberBindings ρ (Association.put name v bindings) =
      Association.put name (v.renumber ρ) (renumberBindings ρ bindings) := by
  simp only [renumberBindings, Association.put, Association.erase, List.map_cons, List.filter_map]
  rfl

theorem renumber_set (s : Store) (f : FrameId) (name : String) (v : Value) :
    (s.set f name v).renumber ρ = (s.renumber ρ).set f name (v.renumber ρ) := by
  refine congrArg Store.mk (Array.ext_getElem? fun g => ?_)
  simp only [set, modify, Array.getElem?_modify, Array.getElem?_map, renumber]
  split
  · cases s.frames[g]? with
    | none => rfl
    | some frame => simp [renumberBindings_put]
  · rfl

theorem renumber_alloc (s : Store) (parent : Option FrameId) :
    (s.alloc parent).1.renumber ρ = ((s.renumber ρ).alloc parent).1 := by
  simp [alloc, renumber, renumberBindings]

theorem renumber_setAll (s : Store) (f : FrameId) (bindings : List (String × Value)) :
    (s.setAll f bindings).renumber ρ =
      (s.renumber ρ).setAll f (renumberBindings ρ bindings) := by
  induction bindings generalizing s with
  | nil => rfl
  | cons b rest ih =>
      have first := ih (s.set f b.1 b.2)
      rw [renumber_set] at first
      exact first

end Store

/-! ## Machines -/

/-- The session with other numbers on its stack. -/
def Session.renumber (ρ : Nat → Nat) (s : Session) : Session :=
  { s with stack := s.stack.map (Value.renumber ρ) }

/-- What sessions share with other numbers. -/
def Common.renumber (ρ : Nat → Nat) (c : Common σ) : Common σ :=
  { c with store := c.store.renumber ρ, serial := ρ c.serial }

namespace Machine

/-- The machine with other numbers. -/
def renumber (ρ : Nat → Nat) (m : Machine σ) : Machine σ :=
  ⟨m.session.renumber ρ, m.common.renumber ρ⟩

theorem renumber_withStack (m : Machine σ) (stack : List Value) :
    (m.withStack stack).renumber ρ = (m.renumber ρ).withStack (stack.map (Value.renumber ρ)) := rfl

theorem renumber_pushAll (m : Machine σ) (vs : List Value) :
    (m.pushAll vs).renumber ρ = (m.renumber ρ).pushAll (vs.map (Value.renumber ρ)) := by
  simp [pushAll, renumber, Session.renumber]

theorem renumber_bind (m : Machine σ) (f : FrameId) (name : String) (v : Value) :
    (m.bind f name v).renumber ρ = (m.renumber ρ).bind f name (v.renumber ρ) := by
  have store := m.common.store.renumber_set (ρ := ρ) f name v
  simp only [renumber, bind, Common.renumber] at store ⊢
  rw [store]

theorem alive_renumber (m : Machine σ) (f : FrameId) : (m.renumber ρ).alive f = m.alive f :=
  m.common.store.alive_renumber _ f

theorem homes_renumber (m : Machine σ) : (m.renumber ρ).session.homes = m.session.homes := by
  change Value.homesAll (m.session.stack.map (Value.renumber ρ)) = _
  rw [← Value.renumberAll_eq, Value.homesAll_renumber]
  rfl

theorem isNeeded_renumber (m : Machine σ) (others : List FrameId) (f : FrameId) :
    (m.renumber ρ).isNeeded others f = m.isNeeded others f := by
  unfold isNeeded
  rw [homes_renumber]
  change ((m.common.store.renumber ρ).alive _ f || (_ ++ _ ++
    (m.common.store.renumber ρ).homes _).contains f) = _
  rw [Store.alive_renumber, Store.homes_renumber]
  rfl

theorem used_renumber (m : Machine σ) (kept fs : List FrameId) :
    (m.renumber ρ).used kept fs = m.used kept fs := by
  induction fs generalizing kept with
  | nil => rfl
  | cons f fs ih => rw [used, used, isNeeded_renumber, ih]

theorem renumber_sweep (m : Machine σ) : m.sweep.renumber ρ = (m.renumber ρ).sweep := by
  unfold sweep
  rw [used_renumber]
  rfl

/-- Which frames are kept does not depend on numbers. -/
theorem renumber_capture (m : Machine σ) (f : FrameId) :
    (m.capture f).renumber ρ = (m.renumber ρ).capture f := by
  unfold capture
  change Machine.renumber ρ (if f ∈ m.session.captured then m else _) =
    if f ∈ m.session.captured then m.renumber ρ else _
  split
  · rfl
  · dsimp only
    change Machine.renumber ρ (if m.session.sweepAt ≤ (m.session.captured ++ [f]).length then _
      else _) = if m.session.sweepAt ≤ (m.session.captured ++ [f]).length then _ else _
    split
    · exact renumber_sweep _
    · rfl

end Machine

/-- What a machine holds has the same numbers afterwards, if all its numbers become the same. -/
theorem Machine.contents_congr {m : Machine σ}
    (stack : ∀ n, .serial n ∈ Value.marksAll m.session.stack → ρ n = π n)
    (bound : ∀ f n, .serial n ∈ m.common.store.marked f → ρ n = π n) :
    m.session.renumber ρ = m.session.renumber π ∧
      m.common.store.renumber ρ = m.common.store.renumber π := by
  have stack_eq : m.session.stack.map (Value.renumber ρ) =
      m.session.stack.map (Value.renumber π) := by
    rw [← Value.renumberAll_eq, ← Value.renumberAll_eq]
    exact Value.renumberAll_congr stack
  refine ⟨by rw [Session.renumber, Session.renumber, stack_eq], ?_⟩
  refine congrArg Store.mk (Array.ext_getElem? fun f => ?_)
  rw [Array.getElem?_map, Array.getElem?_map]
  cases there : m.common.store.frames[f]? with
  | none => rfl
  | some frame =>
      have bindings : m.common.store.bindings f = frame.bindings := by
        rw [Store.bindings, there]
        rfl
      have same : Store.renumberBindings ρ frame.bindings =
          Store.renumberBindings π frame.bindings := by
        refine List.map_congr_left fun b among => ?_
        rw [Value.renumber_congr fun n mem => bound f n ?_]
        refine Value.marks_subset (List.mem_map_of_mem ?_) mem
        exact bindings ▸ among
      simp only [Option.map_some, same]

theorem Machine.contents_id (m : Machine σ) :
    m.session.renumber id = m.session ∧ m.common.store.renumber id = m.common.store := by
  have stack_eq : m.session.stack.map (Value.renumber id) = m.session.stack := by
    rw [← Value.renumberAll_eq, Value.renumberAll_id]
  refine ⟨by rw [Session.renumber, stack_eq], ?_⟩
  refine congrArg Store.mk (Array.ext_getElem? fun f => ?_)
  rw [Array.getElem?_map]
  cases m.common.store.frames[f]? with
  | none => rfl
  | some frame => simp [Store.renumberBindings, Value.renumber_id]

theorem Machine.renumber_id (m : Machine σ) : m.renumber id = m := by
  unfold Machine.renumber Common.renumber
  rw [m.contents_id.1, m.contents_id.2]
  rfl

end PeerScript
