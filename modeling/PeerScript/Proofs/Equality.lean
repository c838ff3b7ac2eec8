import Mathlib
import PeerScript.Proofs.Integers

/-!
# Equality and order of values

Values and trees are compared part by part, in each other.  What a comparison looks at is itself a
value: `compared` forgets the homes of functions and all of an instance but its number.  Without
floating point numbers two values are equal if and only if this is the same for both, so that
equality is an equivalence whatever the depth of the values.

Integers have the order of all integers and texts that of their characters; nothing else has an
order.
-/

set_option autoImplicit false

namespace PeerScript

/-! ## Values without floating point numbers -/

mutual

/-- There is no floating point number in a value, at any depth.  An instance is compared by its
number, whatever its fields are. -/
def Value.IsFloatless : Value → Prop
  | .float _ => False
  | .list items => Value.AreFloatless items
  | .closure _ body _ => body.IsFloatless
  | _ => True

/-- There is no floating point number in values. -/
def Value.AreFloatless : List Value → Prop
  | [] => True
  | v :: rest => v.IsFloatless ∧ Value.AreFloatless rest

/-- There is no floating point number in a tree. -/
def Tree.IsFloatless : Tree → Prop
  | .literal v => v.IsFloatless
  | .reference _ => True
  | .call _ args => Tree.AreFloatless args

/-- There is no floating point number in trees. -/
def Tree.AreFloatless : List Tree → Prop
  | [] => True
  | t :: rest => t.IsFloatless ∧ Tree.AreFloatless rest

end

/-- A value without floating point numbers. -/
abbrev FloatlessValue : Type := { v : Value // v.IsFloatless }

/-! ## What is compared -/

mutual

/-- What a comparison looks at. -/
def Value.compared : Value → Value
  | .list items => .list (Value.comparedAll items)
  | .closure params body _ => .closure params body.compared none
  | .handle _ serial _ => .handle default serial []
  | v => v

/-- What a comparison of values looks at. -/
def Value.comparedAll : List Value → List Value
  | [] => []
  | v :: rest => v.compared :: Value.comparedAll rest

/-- What a comparison of trees looks at. -/
def Tree.compared : Tree → Tree
  | .literal v => .literal v.compared
  | .reference path => .reference path
  | .call head args => .call head (Tree.comparedAll args)

/-- What a comparison of lists of trees looks at. -/
def Tree.comparedAll : List Tree → List Tree
  | [] => []
  | t :: rest => t.compared :: Tree.comparedAll rest

end

mutual

/-- Two values are equal if what is compared of them is the same. -/
theorem Value.same_iff : ∀ {v w : Value}, v.IsFloatless → w.IsFloatless →
    (v.same w = true ↔ v.compared = w.compared)
  | .float _, _, no, _ => no.elim
  | .bool _, w, _, other | .int _, w, _, other | .str _, w, _, other | .native _, w, _, other
  | .object _, w, _, other => by
      cases w with
      | float => exact other.elim
      | _ => simp [Value.same, Value.compared]
  | .list vs, w, items, other => by
      cases w with
      | float => exact other.elim
      | list ws =>
        rw [Value.same, Value.compared, Value.compared, Value.list.injEq,
          Value.sameAll_iff items other]
      | _ => simp [Value.same, Value.compared]
  | .closure params body _, w, inside, other => by
      cases w with
      | float => exact other.elim
      | closure params' body' _ =>
          rw [Value.same, Value.compared, Value.compared, Value.closure.injEq,
            Bool.and_eq_true, beq_iff_eq, Tree.same_iff inside other]
          simp
      | _ => simp [Value.same, Value.compared]
  | .handle _ _ _, w, _, other => by
      cases w with
      | float => exact other.elim
      | _ => simp [Value.same, Value.compared]

theorem Value.sameAll_iff : ∀ {vs ws : List Value}, Value.AreFloatless vs → Value.AreFloatless ws →
    (Value.sameAll vs ws = true ↔ Value.comparedAll vs = Value.comparedAll ws)
  | [], ws, _, _ => by cases ws <;> simp [Value.sameAll, Value.comparedAll]
  | _ :: _, [], _, _ => by simp [Value.sameAll, Value.comparedAll]
  | v :: vs, w :: ws, ⟨first, rest⟩, ⟨first', rest'⟩ => by
      rw [Value.sameAll, Value.comparedAll, Value.comparedAll, List.cons.injEq, Bool.and_eq_true,
        Value.same_iff first first', Value.sameAll_iff rest rest']

theorem Tree.same_iff : ∀ {t u : Tree}, t.IsFloatless → u.IsFloatless →
    (t.same u = true ↔ t.compared = u.compared)
  | .literal v, u, inside, other => by
      cases u with
      | literal w =>
        rw [Tree.same, Tree.compared, Tree.compared, Tree.literal.injEq,
          Value.same_iff inside other]
      | _ => simp [Tree.same, Tree.compared]
  | .reference _, u, _, _ => by
      cases u <;> simp [Tree.same, Tree.compared]
  | .call head args, u, inside, other => by
      cases u with
      | call head' args' =>
          rw [Tree.same, Tree.compared, Tree.compared, Tree.call.injEq,
            Bool.and_eq_true, beq_iff_eq, Tree.sameAll_iff inside other]
      | _ => simp [Tree.same, Tree.compared]

theorem Tree.sameAll_iff : ∀ {ts us : List Tree}, Tree.AreFloatless ts → Tree.AreFloatless us →
    (Tree.sameAll ts us = true ↔ Tree.comparedAll ts = Tree.comparedAll us)
  | [], us, _, _ => by cases us <;> simp [Tree.sameAll, Tree.comparedAll]
  | _ :: _, [], _, _ => by simp [Tree.sameAll, Tree.comparedAll]
  | t :: ts, u :: us, ⟨first, rest⟩, ⟨first', rest'⟩ => by
      rw [Tree.sameAll, Tree.comparedAll, Tree.comparedAll, List.cons.injEq, Bool.and_eq_true,
        Tree.same_iff first first', Tree.sameAll_iff rest rest']

end

/-- Equality of values is an equivalence. -/
theorem equivalence_beq : Equivalence fun v w : FloatlessValue => (v.val == w.val) = true := by
  have compared : ∀ v w : FloatlessValue,
      (v.val == w.val) = true ↔ v.val.compared = w.val.compared := fun v w => Value.same_iff v.2 w.2
  constructor
  · intro v
    exact (compared v v).mpr rfl
  · intro v w same
    exact (compared w v).mpr ((compared v w).mp same).symm
  · intro u v w first second
    exact (compared u w).mpr (((compared u v).mp first).trans ((compared v w).mp second))

/-! ## Parts -/

theorem Value.sameAll_iff_forall₂ {vs ws : List Value} :
    Value.sameAll vs ws = true ↔ List.Forall₂ (fun v w => (v == w) = true) vs ws := by
  induction vs generalizing ws with
  | nil => cases ws <;> simp [Value.sameAll]
  | cons v vs ih =>
      cases ws with
      | nil => simp [Value.sameAll]
      | cons w ws =>
          rw [Value.sameAll, Bool.and_eq_true, ih, List.forall₂_cons]
          rfl

theorem Tree.sameAll_iff_forall₂ {ts us : List Tree} :
    Tree.sameAll ts us = true ↔ List.Forall₂ (fun t u => (t == u) = true) ts us := by
  induction ts generalizing us with
  | nil => cases us <;> simp [Tree.sameAll]
  | cons t ts ih =>
      cases us with
      | nil => simp [Tree.sameAll]
      | cons u us =>
          rw [Tree.sameAll, Bool.and_eq_true, ih, List.forall₂_cons]
          rfl

/-- Trees of the same shape whose parts are equal. -/
inductive Tree.SameParts : Tree → Tree → Prop
  | literal {v w : Value} : (v == w) = true → SameParts (.literal v) (.literal w)
  | reference (path : Path) : SameParts (.reference path) (.reference path)
  | call (head : Head) {args args' : List Tree} :
      List.Forall₂ (fun t u => (t == u) = true) args args' →
      SameParts (.call head args) (.call head args')

/-- Values of the same kind whose parts are equal.  The home of a function is not a part of it. -/
inductive Value.SameParts : Value → Value → Prop
  | bool (b : Bool) : SameParts (.bool b) (.bool b)
  | int (i : Int64) : SameParts (.int i) (.int i)
  | str (s : String) : SameParts (.str s) (.str s)
  | list {items items' : List Value} :
      List.Forall₂ (fun v w => (v == w) = true) items items' →
      SameParts (.list items) (.list items')
  | closure (params : List String) {body body' : Tree} (home home' : Option FrameId) :
      (body == body') = true → SameParts (.closure params body home) (.closure params body' home')
  | native (b : Builtin) : SameParts (.native b) (.native b)
  | handle (kind kind' : Kind) (serial : Nat) (fields fields' : List Value) :
      SameParts (.handle kind serial fields) (.handle kind' serial fields')
  | object (o : Object) : SameParts (.object o) (.object o)

theorem Tree.beq_iff_sameParts {t u : Tree} : (t == u) = true ↔ t.SameParts u := by
  change Tree.same t u = true ↔ _
  constructor
  · intro same
    cases t <;> cases u <;>
      simp only [Tree.same, Bool.false_eq_true, Bool.and_eq_true, beq_iff_eq] at same
    case literal.literal => exact .literal same
    case reference.reference => exact same ▸ .reference _
    case call.call =>
      obtain ⟨rfl, args⟩ := same
      exact .call _ (Tree.sameAll_iff_forall₂.mp args)
  · rintro (same | path | ⟨head, args⟩)
    · rwa [Tree.same]
    · rw [Tree.same, beq_self_eq_true]
    · rw [Tree.same, beq_self_eq_true, Bool.true_and]
      exact Tree.sameAll_iff_forall₂.mpr args

theorem Value.beq_iff_sameParts {v w : Value} (hv : v.IsFloatless) (hw : w.IsFloatless) :
    (v == w) = true ↔ v.SameParts w := by
  change Value.same v w = true ↔ _
  constructor
  · intro same
    cases v <;> cases w <;>
      simp only [Value.same, Bool.false_eq_true, Bool.and_eq_true, beq_iff_eq] at same
    case bool.bool => exact same ▸ .bool _
    case int.int => exact same ▸ .int _
    case float.float | float.int => exact hv.elim
    case int.float => exact hw.elim
    case str.str => exact same ▸ .str _
    case list.list => exact .list (Value.sameAll_iff_forall₂.mp same)
    case closure.closure =>
      obtain ⟨rfl, body⟩ := same
      exact .closure _ _ _ body
    case native.native => exact same ▸ .native _
    case handle.handle => exact same ▸ .handle ..
    case object.object => exact same ▸ .object _
  · rintro (b | i | s | items | ⟨params, home, home', body⟩ | b
      | ⟨kind, kind', serial, fields, fields'⟩ | o)
    · simp [Value.same]
    · simp [Value.same]
    · simp [Value.same]
    · rw [Value.same]
      exact Value.sameAll_iff_forall₂.mpr items
    · rw [Value.same, beq_self_eq_true, Bool.true_and]
      exact body
    · simp [Value.same]
    · simp [Value.same]
    · simp [Value.same]

/-- The kinds of values. -/
inductive Value.Form where
  | bool | int | float | text | list | function | builtin | handle | object
  deriving DecidableEq

/-- The kind of a value. -/
def Value.form : Value → Value.Form
  | .bool _ => .bool
  | .int _ => .int
  | .float _ => .float
  | .str _ => .text
  | .list _ => .list
  | .closure .. => .function
  | .native _ => .builtin
  | .handle .. => .handle
  | .object _ => .object

theorem Value.SameParts.form_eq {v w : Value} (h : v.SameParts w) : v.form = w.form := by
  cases h <;> rfl

/-! ## Order -/

/-- Two values that have an order: two integers or two texts. -/
inductive Value.Ordered : Value → Value → Prop
  | ints (a b : Int64) : Ordered (.int a) (.int b)
  | texts (s t : String) : Ordered (.str s) (.str t)

/-- A value comes in front of another one in their order. -/
inductive Value.Less : Value → Value → Prop
  | int {a b : Int64} : a.toInt < b.toInt → Less (.int a) (.int b)
  | str {s t : String} : s < t → Less (.str s) (.str t)

theorem Value.Less.trans {u v w : Value} (first : u.Less v) (second : v.Less w) : u.Less w := by
  cases first with
  | int less =>
      cases second with
      | int more => exact .int (less.trans more)
  | str less =>
      cases second with
      | str more => exact .str (less.trans more)

namespace Operator

/-- The comparisons of two values: exactly one of `<`, `==` and `>` is so, and `<=` and `>=` are the
opposites of `>` and `<`. -/
def Decides (v w : Value) : Prop :=
  ∃ less equal greater : Bool,
    lt.apply [v, w] = .ok (.bool less) ∧ eq.apply [v, w] = .ok (.bool equal) ∧
    gt.apply [v, w] = .ok (.bool greater) ∧ less.toNat + equal.toNat + greater.toNat = 1 ∧
    le.apply [v, w] = .ok (.bool !greater) ∧ ge.apply [v, w] = .ok (.bool !less)

theorem decides_of_ordering {α : Type} [LinearOrder α] {v w : Value} {a b : α}
    (ordered : ordering? v w = some (some (order a b))) (same : (v == w) = decide (a = b)) :
    Decides v w := by
  have compared : ∀ {o : Operator} {t : Bool}, o.admits (order a b) = t →
      compare o v w = .ok (.bool t) := by
    rintro o t rfl
    exact compare_of_ordering ordered
  have one : (decide (a < b)).toNat + (decide (a = b)).toNat + (decide (b < a)).toNat = 1 := by
    rcases lt_trichotomy a b with less | rfl | greater
    · simp [less, less.ne, less.not_gt]
    · simp
    · simp [greater, greater.ne', greater.not_gt]
  refine ⟨_, _, _, compared (admits_lt a b), ?_, compared (admits_gt a b), one, ?_, ?_⟩
  · rw [← same]
    rfl
  · refine compared ((admits_le a b).trans ?_)
    rw [← decide_not, decide_eq_decide, not_lt]
  · refine compared ((admits_ge a b).trans ?_)
    rw [← decide_not, decide_eq_decide, not_lt]

theorem decides_of_ordered {v w : Value} (h : v.Ordered w) : Decides v w := by
  cases h with
  | ints a b =>
      refine decides_of_ordering (a := a.toInt) (b := b.toInt) rfl ?_
      change Value.same _ _ = _
      rw [Value.same, beq_eq_decide, decide_eq_decide, Int64.toInt_inj]
  | texts s t =>
      refine decides_of_ordering (a := s) (b := t) rfl ?_
      change Value.same _ _ = _
      rw [Value.same, beq_eq_decide]

theorem ordering?_of_not_ordered {v w : Value} (hv : v.IsFloatless) (hw : w.IsFloatless)
    (unordered : ¬ v.Ordered w) : ordering? v w = none := by
  cases v with
  | float => exact hv.elim
  | int a =>
      cases w with
      | int b => exact absurd (.ints a b) unordered
      | float => exact hw.elim
      | _ => rfl
  | str s =>
      cases w with
      | str t => exact absurd (.texts s t) unordered
      | _ => rfl
  | _ => cases w <;> rfl

/-- Values that have no order are refused, with the names of their types. -/
theorem apply_of_not_ordered {v w : Value} (hv : v.IsFloatless) (hw : w.IsFloatless)
    (unordered : ¬ v.Ordered w) {o : Operator} (comparison : o ∈ [lt, le, gt, ge]) :
    o.apply [v, w] = .error (.typeError
      ("cannot apply " ++ o.symbol ++ " to " ++ (v.typeName ++ " and " ++ w.typeName))) := by
  have refused : compare o v w = .error (refuse o [v, w]) := by
    rw [compare, ordering?_of_not_ordered hv hw unordered]
  have names : " and ".intercalate [v.typeName, w.typeName] = v.typeName ++ " and " ++
      w.typeName := rfl
  rw [refuse, List.map_cons, List.map_cons, List.map_nil, names] at refused
  simp only [List.mem_cons, List.not_mem_nil, or_false] at comparison
  rcases comparison with rfl | rfl | rfl | rfl <;> exact refused

theorem lt_apply_ints (a b : Int64) :
    lt.apply [.int a, .int b] = .ok (.bool (decide (a.toInt < b.toInt))) := (compare_integers a b).1

theorem lt_apply_texts (s t : String) :
    lt.apply [.str s, .str t] = .ok (.bool (decide (s < t))) := by
  have compared : lt.apply [.str s, .str t] = .ok (.bool (lt.admits (order s t))) := rfl
  rw [compared]
  exact congrArg (fun b => Except.ok (Value.bool b)) (admits_lt s t)

/-- `<` holds between two values if one comes in front of the other. -/
theorem lt_apply_iff {v w : Value} (hv : v.IsFloatless) (hw : w.IsFloatless) :
    lt.apply [v, w] = .ok (.bool true) ↔ v.Less w := by
  constructor
  · intro holds
    by_cases ordered : v.Ordered w
    · cases ordered with
      | ints a b =>
          rw [lt_apply_ints] at holds
          exact .int (of_decide_eq_true (Value.bool.inj (Except.ok.inj holds)))
      | texts s t =>
          rw [lt_apply_texts] at holds
          exact .str (of_decide_eq_true (Value.bool.inj (Except.ok.inj holds)))
    · rw [apply_of_not_ordered hv hw ordered (by simp)] at holds
      exact nomatch holds
  · rintro (less | less)
    · rw [lt_apply_ints, decide_eq_true less]
    · rw [lt_apply_texts, decide_eq_true less]

/-- The laws of equality and order.  On values without floating point numbers equality is an
equivalence, and inequality is its opposite.  Lists are equal part by part, and so are functions,
whatever their homes; values of different kinds are not equal.  Two integers and two texts have an
order, in which exactly one of three things is so; all other values are refused by the
comparisons. -/
theorem equality_and_order :
    (Equivalence fun v w : FloatlessValue => (v.val == w.val) = true) ∧
    (∀ v w : Value, eq.apply [v, w] = .ok (.bool (v == w)) ∧
      ne.apply [v, w] = .ok (.bool (!(v == w)))) ∧
    (∀ items items', (Value.list items == .list items') = true ↔
      List.Forall₂ (fun v w => (v == w) = true) items items') ∧
    (∀ params body home params' body' home',
      (Value.closure params body home == .closure params' body' home') = true ↔
        params = params' ∧ Tree.SameParts body body') ∧
    (∀ t u : Tree, (t == u) = true ↔ t.SameParts u) ∧
    (∀ v w : FloatlessValue, (v.val == w.val) = true ↔ v.val.SameParts w.val) ∧
    (∀ v w : FloatlessValue, v.val.form ≠ w.val.form → (v.val == w.val) = false) ∧
    (∀ v w : Value, v.Ordered w → Decides v w) ∧
    (∀ u v w : FloatlessValue, lt.apply [u.val, v.val] = .ok (.bool true) →
      lt.apply [v.val, w.val] = .ok (.bool true) → lt.apply [u.val, w.val] = .ok (.bool true)) ∧
    (∀ v w : FloatlessValue, ¬ v.val.Ordered w.val → ∀ o ∈ [lt, le, gt, ge],
      o.apply [v.val, w.val] = .error (.typeError
        ("cannot apply " ++ o.symbol ++ " to " ++
      (v.val.typeName ++ " and " ++ w.val.typeName)))) := by
  refine ⟨equivalence_beq, fun v w => ⟨rfl, rfl⟩, ?_, ?_, fun t u => Tree.beq_iff_sameParts,
    fun v w => Value.beq_iff_sameParts v.2 w.2, ?_, fun v w => decides_of_ordered, ?_,
    fun v w unordered o comparison => apply_of_not_ordered v.2 w.2 unordered comparison⟩
  · intro items items'
    change Value.same _ _ = true ↔ _
    rw [Value.same, Value.sameAll_iff_forall₂]
  · intro params body home params' body' home'
    change Value.same _ _ = true ↔ _
    rw [Value.same, Bool.and_eq_true, beq_iff_eq]
    exact and_congr_right fun _ => Tree.beq_iff_sameParts
  · intro v w differ
    refine Bool.eq_false_iff.mpr fun same => differ ?_
    exact ((Value.beq_iff_sameParts v.2 w.2).mp same).form_eq
  · intro u v w first second
    rw [lt_apply_iff u.2 v.2] at first
    rw [lt_apply_iff v.2 w.2] at second
    exact (lt_apply_iff u.2 w.2).mpr (first.trans second)

end Operator

end PeerScript
