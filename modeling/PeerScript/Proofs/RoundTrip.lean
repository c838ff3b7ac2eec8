import PeerScript.Proofs.Reading
import PeerScript.Script.Language

/-!
# Reading back a written tree

A tree that a script of the compact language can stand for is read back from its written form
without loss: `parse_render` says so for every such tree that does not nest too deep, in every scope
in which the names that it uses are visible.

What such a tree looks like is said by `Tree.IsScript`: its literals are constants, which need no
operator to be written, and its calls have the shapes that the grammar gives them.
-/

set_option autoImplicit false

namespace PeerScript

open Script (Token IsName nestingLimit)
open Script.Pi (IsPlain)

/-! ## Trees of the compact language -/

/-- A word that the script may bind or look up. -/
structure IsVariable (name : String) : Prop where
  isName : IsName name
  isPlain : IsPlain name

/-- A path whose root can be looked up. -/
structure Path.IsReference (p : Path) : Prop where
  nonempty : p.segments ≠ []
  plain : IsPlain p.root
  names : ∀ name ∈ p.segments, IsName name

instance (name : String) : Decidable (IsVariable name) :=
  decidable_of_iff (IsName name ∧ IsPlain name) ⟨fun h => ⟨h.1, h.2⟩, fun h => ⟨h.1, h.2⟩⟩

instance (p : Path) : Decidable p.IsReference :=
  decidable_of_iff (p.segments ≠ [] ∧ IsPlain p.root ∧ ∀ name ∈ p.segments, IsName name)
    ⟨fun h => ⟨h.1, h.2.1, h.2.2⟩, fun h => ⟨h.1, h.2, h.3⟩⟩

mutual

/-- A value whose written form is a literal: neither a floating point number nor the least integer,
and no function that has a home. -/
def Value.IsConstant : Value → Prop
  | .bool _ | .str _ => True
  | .int i => i ≠ Int64.minValue
  | .list items => Value.AreConstants items
  | .closure params body home => home = none ∧ (∀ name ∈ params, IsName name) ∧ body.IsScript
  | _ => False

/-- Values whose written forms are literals. -/
def Value.AreConstants : List Value → Prop
  | [] => True
  | v :: rest => v.IsConstant ∧ Value.AreConstants rest

/-- A tree that is one term of the language. -/
def Tree.IsTerm : Tree → Prop
  | .literal v => v.IsConstant
  | .reference path => path.IsReference
  | .call .sequence _ => False
  | .call (.bind name) args => IsVariable name ∧ args.length = 1 ∧ Tree.AreTerms args
  | .call (.op operator) args => args.length = operator.arity ∧ Tree.AreTerms args
  | .call (.invoke path) args => path.IsReference ∧ Tree.AreTerms args
  | .call (.construct _) _ => False
  | .call .list args => (∃ t ∈ args, t.isLiteral = false) ∧ Tree.AreTerms args

/-- Trees each of which is one term. -/
def Tree.AreTerms : List Tree → Prop
  | [] => True
  | t :: rest => t.IsTerm ∧ Tree.AreTerms rest

/-- A sequence of terms. -/
def Tree.IsScript : Tree → Prop
  | .call .sequence statements => Tree.AreTerms statements
  | _ => False

end

mutual

/-- Whether a value is written as a literal. -/
def Value.decideConstant : ∀ v : Value, Decidable v.IsConstant
  | .bool _ | .str _ => .isTrue (by simp only [Value.IsConstant])
  | .int i => decidable_of_iff (i ≠ Int64.minValue) (by rw [Value.IsConstant])
  | .list items =>
      have := Value.decideConstants items
      decidable_of_iff (Value.AreConstants items) (by rw [Value.IsConstant])
  | .closure params body home =>
      have := Tree.decideScript body
      decidable_of_iff (home.isNone = true ∧ (∀ name ∈ params, IsName name) ∧ body.IsScript)
        (by rw [Value.IsConstant, Option.isNone_iff_eq_none])
  | .float _ | .native _ | .handle .. | .object _ =>
      .isFalse (by simp only [Value.IsConstant, not_false_iff])

/-- Whether values are written as literals. -/
def Value.decideConstants : ∀ vs : List Value, Decidable (Value.AreConstants vs)
  | [] => .isTrue (by rw [Value.AreConstants]; trivial)
  | v :: rest =>
      have := Value.decideConstant v
      have := Value.decideConstants rest
      decidable_of_iff (v.IsConstant ∧ Value.AreConstants rest) (by rw [Value.AreConstants])

/-- Whether a tree is one term. -/
def Tree.decideTerm : ∀ t : Tree, Decidable t.IsTerm
  | .literal v =>
      have := Value.decideConstant v
      decidable_of_iff v.IsConstant (by rw [Tree.IsTerm])
  | .reference path => decidable_of_iff path.IsReference (by rw [Tree.IsTerm])
  | .call .sequence _ | .call (.construct _) _ =>
      .isFalse (by simp only [Tree.IsTerm, not_false_iff])
  | .call (.bind name) args =>
      have := Tree.decideTerms args
      decidable_of_iff (IsVariable name ∧ args.length = 1 ∧ Tree.AreTerms args)
        (by rw [Tree.IsTerm])
  | .call (.op operator) args =>
      have := Tree.decideTerms args
      decidable_of_iff (args.length = operator.arity ∧ Tree.AreTerms args) (by rw [Tree.IsTerm])
  | .call (.invoke path) args =>
      have := Tree.decideTerms args
      decidable_of_iff (path.IsReference ∧ Tree.AreTerms args) (by rw [Tree.IsTerm])
  | .call .list args =>
      have := Tree.decideTerms args
      decidable_of_iff ((∃ t ∈ args, t.isLiteral = false) ∧ Tree.AreTerms args)
        (by rw [Tree.IsTerm])

/-- Whether trees are terms. -/
def Tree.decideTerms : ∀ ts : List Tree, Decidable (Tree.AreTerms ts)
  | [] => .isTrue (by rw [Tree.AreTerms]; trivial)
  | t :: rest =>
      have := Tree.decideTerm t
      have := Tree.decideTerms rest
      decidable_of_iff (t.IsTerm ∧ Tree.AreTerms rest) (by rw [Tree.AreTerms])

/-- Whether a tree is a sequence of terms. -/
def Tree.decideScript : ∀ t : Tree, Decidable t.IsScript
  | .call .sequence statements =>
      have := Tree.decideTerms statements
      decidable_of_iff (Tree.AreTerms statements) (by rw [Tree.IsScript])
  | .literal _ | .reference _ | .call (.bind _) _ | .call (.op _) _ | .call (.invoke _) _
  | .call (.construct _) _ | .call .list _ => .isFalse (by simp only [Tree.IsScript, not_false_iff])

end

instance (t : Tree) : Decidable t.IsScript := t.decideScript

mutual

/-- The number of levels on which the terms of a written value nest.  The least integer is written
as a difference. -/
def Value.nesting : Value → Nat
  | .int i => if i = Int64.minValue then 2 else 1
  | .list items | .handle _ _ items => Value.deepest items + 1
  | .closure _ body _ => body.nesting + 1
  | _ => 1

/-- The number of levels of the deepest of the values. -/
def Value.deepest : List Value → Nat
  | [] => 0
  | v :: rest => max v.nesting (Value.deepest rest)

/-- The number of levels on which the terms of a tree nest.  A sequence takes none of its own. -/
def Tree.nesting : Tree → Nat
  | .literal v => v.nesting
  | .reference _ => 1
  | .call .sequence args => Tree.deepest args
  | .call _ args => Tree.deepest args + 1

/-- The number of levels of the deepest of the trees. -/
def Tree.deepest : List Tree → Nat
  | [] => 0
  | t :: rest => max t.nesting (Tree.deepest rest)

end

theorem Value.nesting_pos (v : Value) : 0 < v.nesting := by
  unfold Value.nesting
  split
  · split <;> decide
  all_goals exact Nat.succ_pos _

mutual

/-- The roots of the paths that occur in the functions of a value. -/
def Value.roots : Value → List String
  | .list items => Value.rootsAll items
  | .closure _ body _ => body.roots
  | .handle _ _ fields => Value.rootsAll fields
  | _ => []

/-- The roots of the paths that occur in the functions of values. -/
def Value.rootsAll : List Value → List String
  | [] => []
  | v :: rest => v.roots ++ Value.rootsAll rest

/-- The roots of the paths that occur in a tree. -/
def Tree.roots : Tree → List String
  | .literal v => v.roots
  | .reference path => [path.root]
  | .call (.invoke path) args => path.root :: Tree.rootsAll args
  | .call _ args => Tree.rootsAll args

/-- The roots of the paths that occur in trees. -/
def Tree.rootsAll : List Tree → List String
  | [] => []
  | t :: rest => t.roots ++ Tree.rootsAll rest

end

mutual

/-- Nothing is out of view when all roots are bound outside. -/
theorem Value.inScope_of_bound {ctx : Script.Context} :
    ∀ {v : Value} (names : List (List String)), (∀ root ∈ v.roots, ctx.isBound root = true) →
      v.InScope ctx names
  | .list items, names, bound | .handle _ _ items, names, bound => by
      rw [Value.roots] at bound
      rw [Value.InScope]
      exact Value.areInScope_of_bound names bound
  | .closure params body _, names, bound => by
      rw [Value.roots] at bound
      rw [Value.InScope]
      exact Tree.inScope_of_bound (params.reverse :: names) bound
  | .bool _, _, _ | .int _, _, _ | .float _, _, _ | .str _, _, _ | .native _, _, _
  | .object _, _, _ => by simp only [Value.InScope]

theorem Value.areInScope_of_bound {ctx : Script.Context} :
    ∀ {vs : List Value} (names : List (List String)),
      (∀ root ∈ Value.rootsAll vs, ctx.isBound root = true) → Value.AreInScope ctx vs names
  | [], _, _ => by rw [Value.AreInScope]; trivial
  | v :: rest, names, bound => by
      rw [Value.rootsAll, List.forall_mem_append] at bound
      rw [Value.AreInScope]
      exact ⟨Value.inScope_of_bound names bound.1, Value.areInScope_of_bound names bound.2⟩

theorem Tree.inScope_of_bound {ctx : Script.Context} :
    ∀ {t : Tree} (names : List (List String)), (∀ root ∈ t.roots, ctx.isBound root = true) →
      t.InScope ctx names
  | .literal v, names, bound => by
      rw [Tree.roots] at bound
      rw [Tree.InScope]
      exact Value.inScope_of_bound names bound
  | .reference path, names, bound => by
      rw [Tree.roots] at bound
      rw [Tree.InScope]
      exact .of_bound (bound _ List.mem_cons_self) names
  | .call head args, names, bound => by
      rw [Tree.InScope]
      cases head <;> rw [Tree.roots] at bound
      case invoke path =>
        rw [List.forall_mem_cons] at bound
        exact ⟨Tree.areInScope_of_bound _ bound.2, .of_bound bound.1 _⟩
      all_goals first | exact ⟨Tree.areInScope_of_bound _ bound, trivial⟩ | simp

theorem Tree.areInScope_of_bound {ctx : Script.Context} :
    ∀ {ts : List Tree} (names : List (List String)),
      (∀ root ∈ Tree.rootsAll ts, ctx.isBound root = true) → Tree.AreInScope ctx ts names
  | [], _, _ => by rw [Tree.AreInScope]; trivial
  | t :: rest, names, bound => by
      rw [Tree.rootsAll, List.forall_mem_append] at bound
      rw [Tree.AreInScope]
      exact ⟨Tree.inScope_of_bound names bound.1, Tree.areInScope_of_bound _ bound.2⟩

end

/-! ## Such trees can be spelled -/

theorem Path.IsReference.isSpelled {p : Path} (h : p.IsReference) : p.IsSpelled :=
  ⟨h.nonempty, h.names⟩

theorem Path.IsReference.head?_eq {p : Path} (h : p.IsReference) :
    p.segments.head? = some p.root := by
  obtain ⟨_ | ⟨first, others⟩⟩ := p
  · exact absurd rfl h.nonempty
  · rfl

mutual

theorem Value.IsConstant.isSpelled (r : Registry) : ∀ {v : Value}, v.IsConstant → v.IsSpelled r
  | .bool _, _ | .int _, _ | .str _, _ => by simp only [Value.IsSpelled]
  | .list items, h => by
      rw [Value.IsConstant] at h
      rw [Value.IsSpelled]
      exact Value.AreConstants.areSpelled r h
  | .closure _ body _, h => by
      rw [Value.IsConstant] at h
      rw [Value.IsSpelled]
      exact ⟨h.2.1, Tree.IsScript.isSpelled r h.2.2⟩
  | .float _, h | .native _, h | .handle .., h | .object _, h => by
      rw [Value.IsConstant] at h
      · exact h.elim
      all_goals simp

theorem Value.AreConstants.areSpelled (r : Registry) :
    ∀ {vs : List Value}, Value.AreConstants vs → Value.AreSpelled r vs
  | [], _ => by rw [Value.AreSpelled]; trivial
  | v :: rest, h => by
      rw [Value.AreConstants] at h
      rw [Value.AreSpelled]
      exact ⟨Value.IsConstant.isSpelled r h.1, Value.AreConstants.areSpelled r h.2⟩

theorem Tree.IsTerm.isSpelled (r : Registry) : ∀ {t : Tree}, t.IsTerm → t.IsSpelled r
  | .literal v, h => by
      rw [Tree.IsTerm] at h
      rw [Tree.IsSpelled]
      exact Value.IsConstant.isSpelled r h
  | .reference path, h => by
      rw [Tree.IsTerm] at h
      rw [Tree.IsSpelled]
      exact h.isSpelled
  | .call head args, h => by
      rw [Tree.IsSpelled]
      cases head <;> rw [Tree.IsTerm] at h
      case sequence | construct => exact h.elim
      case bind => exact ⟨h.1.isName, Tree.AreTerms.areSpelled r h.2.2⟩
      case op => exact ⟨trivial, Tree.AreTerms.areSpelled r h.2⟩
      case invoke => exact ⟨h.1.isSpelled, Tree.AreTerms.areSpelled r h.2⟩
      case list => exact ⟨trivial, Tree.AreTerms.areSpelled r h.2⟩

theorem Tree.AreTerms.areSpelled (r : Registry) :
    ∀ {ts : List Tree}, Tree.AreTerms ts → Tree.AreSpelled r ts
  | [], _ => by rw [Tree.AreSpelled]; trivial
  | t :: rest, h => by
      rw [Tree.AreTerms] at h
      rw [Tree.AreSpelled]
      exact ⟨Tree.IsTerm.isSpelled r h.1, Tree.AreTerms.areSpelled r h.2⟩

theorem Tree.IsScript.isSpelled (r : Registry) : ∀ {t : Tree}, t.IsScript → t.IsSpelled r
  | .call .sequence statements, h => by
      rw [Tree.IsScript] at h
      rw [Tree.IsSpelled]
      exact ⟨trivial, Tree.AreTerms.areSpelled r h⟩
  | .literal _, h | .reference _, h | .call (.bind _) _, h | .call (.op _) _, h
  | .call (.invoke _) _, h | .call (.construct _) _, h | .call .list _, h => by
      rw [Tree.IsScript] at h
      · exact h.elim
      all_goals simp

end

/-! ## Each of them is read -/

theorem literals_mapM (vs : List Value) :
    (vs.map Tree.literal).mapM Tree.value? = some vs := by
  induction vs with
  | nil => rfl
  | cons v vs ih => simp [Tree.value?, ih]

theorem mapM_eq_none_of_call {ts : List Tree} (call : ∃ t ∈ ts, t.isLiteral = false) :
    ts.mapM Tree.value? = none := by
  obtain ⟨t, among, noLiteral⟩ := call
  have noValue : t.value? = none := by simpa [Tree.isLiteral] using noLiteral
  induction ts with
  | nil => cases among
  | cons u ts ih =>
      rw [List.mapM_cons]
      cases among with
      | head => rw [noValue]; rfl
      | tail _ among =>
          rw [ih among]
          cases u.value? <;> rfl

theorem eq_map_of_forall₂ {α β : Type} {f : α → β} {xs : List α} {ys : List β}
    (h : List.Forall₂ (fun x y => y = f x) xs ys) : ys = xs.map f := by
  induction h with
  | nil => rfl
  | cons h _ ih => rw [h, ih, List.map_cons]

theorem ofNat_natAbs {i : Int64} (h : 0 ≤ i.toInt) : Int64.ofNat i.toInt.natAbs = i := by
  rw [← Int64.ofInt_eq_ofNat, Int.natAbs_of_nonneg h, Int64.ofInt_toInt]

theorem neg_ofNat_natAbs {i : Int64} (h : i.toInt < 0) : -Int64.ofNat i.toInt.natAbs = i := by
  have negated : -(i.toInt.natAbs : Int) = i.toInt := by omega
  rw [← Int64.ofInt_eq_ofNat, ← Int64.ofInt_neg, negated, Int64.ofInt_toInt]

namespace Script.Pi

open PeerScript.Script.Parser
open Encoder (pathTokens integerTokens numeral)

/-- What is known where the names in view and the next serial number are. -/
def Exactly (names : List (List String)) (serial : Nat) : Invariant :=
  fun names' serial' => names' = names ∧ serial' = serial

@[simp] theorem behind_exactly (names : List (List String)) (serial : Nat)
    (change : List (List String) → List (List String)) :
    (Exactly names serial).behind change = Exactly (change names) serial := by
  funext names' serial'
  simp [Invariant.behind, Exactly, and_assoc, and_comm, eq_comm]

theorem begins_name (name : String) (more : List Token) : Begins (.name name :: more) :=
  ⟨_, _, rfl, rfl⟩

theorem begins_path {p : Path} (h : p.IsReference) (more : List Token) :
    Begins (pathTokens p ++ more) := by
  obtain ⟨_ | ⟨root, others⟩⟩ := p
  · exact absurd rfl h.nonempty
  · rw [pathTokens_cons]
    exact begins_name root _

theorem begins_integer (i : Int64) : Begins (integerTokens i) := by
  unfold integerTokens
  split
  · exact ⟨_, _, rfl, rfl⟩
  · split <;> exact ⟨_, _, rfl, rfl⟩

theorem isOperator_mark (o : Operator) : isOperator o.mark = true := by cases o <;> rfl

theorem operatorFor_mark (o : Operator) : operatorFor o.mark o.arity = .ok o := by cases o <;> rfl

theorem begins_constant (e : Encoder) : ∀ {v : Value}, v.IsConstant → Begins (e.valueTokens v)
  | .bool _, _ | .str _, _ | .list _, _ | .closure .., _ => by
      rw [Encoder.valueTokens]
      exact ⟨_, _, rfl, rfl⟩
  | .int i, _ => begins_integer i
  | .float _, h | .native _, h | .handle .., h | .object _, h => by
      rw [Value.IsConstant] at h
      · exact h.elim
      all_goals simp

theorem begins_term (e : Encoder) : ∀ {t : Tree}, t.IsTerm → Begins (e.treeTokens t)
  | .literal v, h => by
      rw [Tree.IsTerm] at h
      rw [Encoder.treeTokens]
      exact begins_constant e h
  | .reference path, h => by
      rw [Tree.IsTerm] at h
      rw [Encoder.treeTokens, ← List.append_nil (pathTokens path)]
      exact begins_path h []
  | .call head args, h => by
      cases head <;> rw [Tree.IsTerm] at h <;> rw [Encoder.treeTokens]
      case sequence | construct => exact h.elim
      case bind name => exact begins_name name _
      case op operator =>
        refine ⟨.symbol operator.mark, _, rfl, ?_⟩
        rw [beginsTerm, isOperator_mark, Bool.or_true]
      case invoke path => exact begins_path h.1 _
      case list => exact ⟨_, _, rfl, rfl⟩

section Reading

variable {ctx : Context} (e : Encoder) (serial : Nat)

/-- An integer other than the least one is one term. -/
theorem constant_reads {I : Invariant} {i : Int64} (notLeast : i ≠ Int64.minValue)
    (inner : Parser Tree) :
    Reads I (termWith ctx inner) (integerTokens i) (· = .literal (.int i)) := by
  rw [integerTokens, if_neg notLeast]
  split
  · rename_i negative
    have reads : Reads I (termWith ctx inner) _ _ :=
      negative_reads ctx (t := .int (Int64.ofNat i.toInt.natAbs)) rfl
    rw [neg_ofNat_natAbs negative] at reads
    exact reads
  · rename_i nonnegative
    exact literal_reads ctx (by rw [numeral, constant?, ofNat_natAbs (by omega)])

theorem begin_constants : ∀ {vs : List Value}, Value.AreConstants vs →
    ∀ v ∈ vs, Begins (e.valueTokens v)
  | [], _ => nofun
  | v :: rest, h => by
      rw [Value.AreConstants] at h
      exact List.forall_mem_cons.mpr ⟨begins_constant e h.1, begin_constants h.2⟩

theorem begin_terms : ∀ {ts : List Tree}, Tree.AreTerms ts → ∀ t ∈ ts, Begins (e.treeTokens t)
  | [], _ => nofun
  | t :: rest, h => by
      rw [Tree.AreTerms] at h
      exact List.forall_mem_cons.mpr ⟨begins_term e h.1, begin_terms h.2⟩

mutual

theorem value_reads : ∀ (v : Value) (levels : Nat) (names : List (List String)), names ≠ [] →
    v.IsConstant → v.InScope ctx names → v.nesting ≤ levels →
    Reads (Exactly names serial) (term ctx levels) (e.valueTokens v) (· = .literal v)
  | v, 0, _, _, _, _, shallow => absurd shallow (Nat.not_le_of_lt v.nesting_pos)
  | .bool b, levels + 1, _, _, _, _, _ => literal_reads ctx (constant?_bool b)
  | .int i, levels + 1, _, _, constant, _, _ => by
      rw [Value.IsConstant] at constant
      exact constant_reads constant (Pi.term ctx levels)
  | .str s, levels + 1, _, _, _, _, _ => literal_reads ctx rfl
  | .list items, levels + 1, names, opened, constant, inScope, shallow => by
      rw [Value.IsConstant] at constant
      rw [Value.InScope] at inScope
      rw [Value.nesting] at shallow
      have each := values_read items levels names opened constant inScope (by omega)
      intro c more follows stands
      rw [Encoder.valueTokens, Encoder.valuesTokens_eq_map] at stands
      obtain ⟨tree, c', read, ⟨trees, rights, rfl⟩, stands'⟩ :=
        list_reads ctx each (begin_constants e constant) follows stands
      refine ⟨_, c', read, ?_, stands'⟩
      rw [eq_map_of_forall₂ rights, Parser.list, literals_mapM]
  | .closure params body home, levels + 1, names, opened, constant, inScope, shallow => by
      rw [Value.IsConstant] at constant
      obtain ⟨rfl, -, isScript⟩ := constant
      rw [Value.InScope] at inScope
      rw [Value.nesting] at shallow
      obtain ⟨statements, rfl, each, begins⟩ := body_reads body levels (params.reverse :: names)
        (List.cons_ne_nil _ _) isScript inScope (by omega)
      intro c more follows stands
      rw [Encoder.valueTokens, Encoder.treeTokens, Encoder.treesTokens_eq_map] at stands
      rw [← behind_exactly names serial (params.reverse :: ·)] at each
      obtain ⟨tree, c', read, ⟨trees, rights, rfl⟩, stands'⟩ :=
        closure_reads ctx each begins follows stands
      rw [List.modifyHead_cons, behind_exactly, leave_cons _ opened] at stands'
      refine ⟨_, c', read, ?_, stands'⟩
      rw [eq_map_of_forall₂ (f := id) rights, List.map_id]
      rfl
  | .float _, _ + 1, _, _, h, _, _ | .native _, _ + 1, _, _, h, _, _
  | .handle .., _ + 1, _, _, h, _, _ | .object _, _ + 1, _, _, h, _, _ => by
      rw [Value.IsConstant] at h
      · exact h.elim
      all_goals simp

theorem values_read : ∀ (vs : List Value) (levels : Nat) (names : List (List String)), names ≠ [] →
    Value.AreConstants vs → Value.AreInScope ctx vs names → Value.deepest vs ≤ levels →
    ReadsAll (term ctx levels) e.valueTokens (fun v tree => tree = .literal v)
      (Exactly names serial) vs (Exactly names serial)
  | [], _, _, _, _, _, _ => .nil
  | v :: rest, levels, names, opened, constant, inScope, shallow => by
      rw [Value.AreConstants] at constant
      rw [Value.AreInScope] at inScope
      rw [Value.deepest] at shallow
      exact .cons (value_reads v levels names opened constant.1 inScope.1 (by omega))
        (values_read rest levels names opened constant.2 inScope.2 (by omega))

theorem tree_reads : ∀ (t : Tree) (levels : Nat) (names : List (List String)), names ≠ [] →
    t.IsTerm → t.InScope ctx names → t.nesting ≤ levels →
    ReadsTo (Exactly names serial) (Exactly (names.modifyHead (t.binds ++ ·)) serial)
      (term ctx levels) (e.treeTokens t) (· = t)
  | .literal v, levels, names, opened, isTerm, inScope, shallow => by
      rw [Tree.IsTerm] at isTerm
      rw [Tree.InScope] at inScope
      rw [Tree.nesting] at shallow
      rw [Encoder.treeTokens, Tree.binds_literal, modifyHead_nil_append]
      exact value_reads v levels names opened isTerm inScope shallow
  | .reference path, 0, _, _, _, _, shallow => by simp [Tree.nesting] at shallow
  | .reference path, levels + 1, names, _, isTerm, inScope, _ => by
      rw [Tree.IsTerm] at isTerm
      rw [Tree.InScope] at inScope
      rw [Tree.binds_reference, modifyHead_nil_append]
      refine reference_reads isTerm.head?_eq isTerm.plain ?_
      rintro _ _ ⟨rfl, -⟩
      exact inScope
  | .call head args, 0, _, _, isTerm, _, shallow => by
      cases head <;> simp [Tree.nesting, Tree.IsTerm] at shallow isTerm
  | .call head args, levels + 1, names, opened, isTerm, inScope, shallow => by
      have inside : Tree.AreTerms args → Tree.deepest args ≤ levels →
          ReadsAll (term ctx levels) e.treeTokens (fun t tree => tree = t)
            (Exactly (names.modifyHead (head.binds ++ ·)) serial) args
            (Exactly (names.modifyHead (Tree.binds (.call head args) ++ ·)) serial) := by
        intro areTerms shallow
        rw [Tree.InScope] at inScope
        rw [Tree.binds, ← modifyHead_append]
        exact trees_read args levels _ (by simpa using opened) areTerms inScope.1 shallow
      intro c more follows stands
      cases head <;> rw [Tree.IsTerm] at isTerm <;> simp only [Tree.nesting] at shallow
      case sequence | construct => exact isTerm.elim
      case bind name =>
        have each := inside isTerm.2.2 (by omega)
        obtain ⟨value, rfl⟩ := List.length_eq_one_iff.mp isTerm.2.1
        rw [Encoder.treeTokens, Encoder.treesTokens_eq_map, List.map_singleton,
          List.flatten_singleton] at stands
        cases each with
        | cons reads rest =>
            cases rest
            rw [Head.binds] at reads
            obtain ⟨tree, c', read, ⟨_, rfl, rfl⟩, stands'⟩ :=
              bind_reads ctx isTerm.1.isPlain (by rw [behind_exactly]; exact reads)
                (begin_terms e isTerm.2.2 _ List.mem_cons_self) follows stands
            exact ⟨_, c', read, rfl, stands'⟩
      case op operator =>
        have each := inside isTerm.2 (by omega)
        rw [Head.binds, modifyHead_nil_append] at each
        rw [Encoder.treeTokens, Encoder.treesTokens_eq_map] at stands
        obtain ⟨tree, c', read, ⟨trees, rights, rfl⟩, stands'⟩ :=
          op_reads ctx each (begin_terms e isTerm.2) (isOperator_mark operator)
            (isTerm.1 ▸ operatorFor_mark operator) follows stands
        refine ⟨_, c', read, ?_, stands'⟩
        rw [eq_map_of_forall₂ (f := id) rights, List.map_id]
        rfl
      case invoke path =>
        have each := inside isTerm.2 (by omega)
        rw [Tree.InScope] at inScope
        rw [Head.binds, modifyHead_nil_append] at each
        rw [Encoder.treeTokens, Encoder.treesTokens_eq_map] at stands
        have visible : ∀ names' serial',
            Exactly (names.modifyHead (Tree.binds (.call (.invoke path) args) ++ ·)) serial names'
              serial' → ctx.Sees names' path.root := by
          rintro _ _ ⟨rfl, -⟩
          exact inScope.2
        obtain ⟨tree, c', read, ⟨trees, rights, rfl⟩, stands'⟩ :=
          invoke_reads isTerm.1.head?_eq isTerm.1.plain visible each (begin_terms e isTerm.2)
            follows stands
        refine ⟨_, c', read, ?_, stands'⟩
        rw [eq_map_of_forall₂ (f := id) rights, List.map_id]
        rfl
      case list =>
        have each := inside isTerm.2 (by omega)
        rw [Head.binds, modifyHead_nil_append] at each
        rw [Encoder.treeTokens, Encoder.treesTokens_eq_map] at stands
        obtain ⟨tree, c', read, ⟨trees, rights, rfl⟩, stands'⟩ :=
          list_reads ctx each (begin_terms e isTerm.2) follows stands
        refine ⟨_, c', read, ?_, stands'⟩
        rw [eq_map_of_forall₂ (f := id) rights, List.map_id, Parser.list,
          mapM_eq_none_of_call isTerm.1]

theorem trees_read : ∀ (ts : List Tree) (levels : Nat) (names : List (List String)), names ≠ [] →
    Tree.AreTerms ts → Tree.AreInScope ctx ts names → Tree.deepest ts ≤ levels →
    ReadsAll (term ctx levels) e.treeTokens (fun t tree => tree = t) (Exactly names serial) ts
      (Exactly (names.modifyHead (Tree.bindsAll ts ++ ·)) serial)
  | [], _, names, _, _, _, _ => by
      rw [Tree.bindsAll, modifyHead_nil_append]
      exact .nil
  | t :: rest, levels, names, opened, areTerms, inScope, shallow => by
      rw [Tree.AreTerms] at areTerms
      rw [Tree.AreInScope] at inScope
      rw [Tree.deepest] at shallow
      rw [Tree.bindsAll, ← modifyHead_append]
      exact .cons (tree_reads t levels names opened areTerms.1 inScope.1 (by omega))
        (trees_read rest levels _ (by simpa using opened) areTerms.2 inScope.2 (by omega))

theorem body_reads : ∀ (body : Tree) (levels : Nat) (names : List (List String)), names ≠ [] →
    body.IsScript → body.InScope ctx names → body.nesting ≤ levels →
    ∃ statements, body = .call .sequence statements ∧
      ReadsAll (term ctx levels) e.treeTokens (fun t tree => tree = t) (Exactly names serial)
        statements (Exactly (names.modifyHead (Tree.bindsAll statements ++ ·)) serial) ∧
      ∀ t ∈ statements, Begins (e.treeTokens t)
  | .call .sequence statements, levels, names, opened, isScript, inScope, shallow => by
      rw [Tree.IsScript] at isScript
      rw [Tree.InScope, Head.binds, modifyHead_nil_append] at inScope
      rw [Tree.nesting] at shallow
      exact ⟨statements, rfl,
        trees_read statements levels names opened isScript inScope.1 shallow,
        begin_terms e isScript⟩
  | .literal _, _, _, _, h, _, _ | .reference _, _, _, _, h, _, _
  | .call (.bind _) _, _, _, _, h, _, _ | .call (.op _) _, _, _, _, h, _, _
  | .call (.invoke _) _, _, _, _, h, _, _ | .call (.construct _) _, _, _, _, h, _, _
  | .call .list _, _, _, _, h, _, _ => by
      rw [Tree.IsScript] at h
      · exact h.elim
      all_goals simp

end

end Reading

end Script.Pi

/-- Reading undoes writing, whatever is registered, in every scope in which the tree finds the names
that it uses. -/
theorem parse_render_inScope (e : Encoder) {ctx : Script.Context} (t : Tree) (isScript : t.IsScript)
    (shallow : t.nesting ≤ nestingLimit) (inScope : t.InScope ctx [[]]) (serial : Nat) :
    Script.parse .pi ctx (e.render t) serial = .ok (t, serial) := by
  have spelled := isScript.isSpelled e.registry
  obtain ⟨statements, rfl, each, begins⟩ := Script.Pi.body_reads e serial t nestingLimit [[]]
    (List.cons_ne_nil _ _) isScript inScope shallow
  have cut : Script.Lexes (e.render (.call .sequence statements)).toList
      ((statements.map e.treeTokens).flatten ++ [.finish]) := by
    have cut := Encoder.lexes_tree e (.call .sequence statements) spelled Encoder.Apart.nil
      Script.Lexes.nil
    rw [Encoder.treeTokens, Encoder.treesTokens_eq_map, List.append_nil] at cut
    rw [Encoder.render, String.toList_ofList]
    exact cut
  obtain ⟨trees, next, names, parsed, rights, -, rfl⟩ := Script.Pi.parse_of_reads ctx ⟨rfl, rfl⟩ cut
    (fun t _ => Encoder.newline_not_mem_tree e t) each begins
  rw [parsed, eq_map_of_forall₂ (f := id) rights, List.map_id]
  rfl

/-- Reading undoes writing, whatever is registered, in every scope in which the names that the tree
uses are visible. -/
theorem parse_render (e : Encoder) {ctx : Script.Context} (t : Tree) (isScript : t.IsScript)
    (shallow : t.nesting ≤ nestingLimit) (bound : ∀ root ∈ t.roots, ctx.isBound root = true)
    (serial : Nat) : Script.parse .pi ctx (e.render t) serial = .ok (t, serial) :=
  parse_render_inScope e t isScript shallow (Tree.inScope_of_bound [[]] bound) serial

/-- A script whose neighbouring terms could merge: an operator of bars behind an empty list of
parameters, a negative numeral behind a name, a negation beside a negative numeral, and literals of
which some make a literal list and others are arguments. -/
def crowded : Tree :=
  .call .sequence
    [.call (.bind "f") [.literal (.closure [] (.call .sequence
      [.call (.op .or) [.reference ⟨["x"]⟩, .reference ⟨["x", "y"]⟩]]) none)],
     .reference ⟨["x"]⟩, .literal (.int (-3)), .call (.op .neg) [.literal (.int 3)],
     .call (.op .sub) [.literal (.int 3), .reference ⟨["x"]⟩],
     .call .list [.literal (.list [.bool true, .str "-3"]), .call (.invoke ⟨["f"]⟩) []]]

theorem parse_render_crowded :
    Script.parse .pi ⟨fun name => name == "x" || name == "f", .standard⟩
      ((Encoder.plain .standard).render crowded) 7 = .ok (crowded, 7) := by
  exact parse_render (.plain .standard) crowded (by decide) (by decide) (by decide) 7

end PeerScript
