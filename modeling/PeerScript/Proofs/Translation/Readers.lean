import Mathlib.Data.List.TakeWhile
import PeerScript.Proofs.RoundTrip
import PeerScript.Proofs.Translation.Gives

/-!
# What the language of statements is read as

The readers of the language of statements make trees that are terms of the compact language as well,
and that find in view, in the order in which the compact language looks names up, all names that
they use.

The compact language takes `true` and `false` for literals wherever they stand, so a tree is a term
of it only if it binds neither.
-/

set_option autoImplicit false

namespace PeerScript

open Script (Context IsName Token)
open Script.Pi (IsPlain)

/-! ## The names that are bound somewhere in a tree -/

mutual

/-- The names that the functions of a value bind, their parameters apart. -/
def Value.defines : Value → List String
  | .list items => Value.definesAll items
  | .closure _ body _ => body.defines
  | .handle _ _ fields => Value.definesAll fields
  | _ => []

/-- The names that the functions of values bind. -/
def Value.definesAll : List Value → List String
  | [] => []
  | v :: rest => v.defines ++ Value.definesAll rest

/-- The names that a tree binds, in its scope or in the functions that it makes. -/
def Tree.defines : Tree → List String
  | .literal v => v.defines
  | .reference _ => []
  | .call head args => head.binds ++ Tree.definesAll args

/-- The names that trees bind. -/
def Tree.definesAll : List Tree → List String
  | [] => []
  | t :: rest => t.defines ++ Tree.definesAll rest

end

/-- Whether all names that a tree binds can be bound in the compact language. -/
def Tree.BindsPlain (t : Tree) : Prop := ∀ name ∈ t.defines, IsPlain name

instance (t : Tree) : Decidable t.BindsPlain :=
  inferInstanceAs (Decidable (∀ name ∈ t.defines, IsPlain name))

theorem Tree.definesAll_literals (vs : List Value) :
    Tree.definesAll (vs.map .literal) = Value.definesAll vs := by
  induction vs with
  | nil => rfl
  | cons v vs ih => rw [List.map_cons, definesAll, defines, ih, Value.definesAll]

theorem Tree.areTerms_literals (vs : List Value) :
    Tree.AreTerms (vs.map .literal) ↔ Value.AreConstants vs := by
  induction vs with
  | nil => simp only [List.map_nil, AreTerms, Value.AreConstants]
  | cons v vs ih => rw [List.map_cons, AreTerms, IsTerm, ih, Value.AreConstants]

theorem Tree.areInScope_literals {ctx : Context} {names : List (List String)} (vs : List Value) :
    Tree.AreInScope ctx (vs.map .literal) names ↔ Value.AreInScope ctx vs names := by
  induction vs with
  | nil => simp only [List.map_nil, AreInScope, Value.AreInScope]
  | cons v vs ih =>
      rw [List.map_cons, AreInScope, InScope, binds_literal, modifyHead_nil_append, ih,
        Value.AreInScope]

/-- Items of which each is a literal are the literals of values. -/
theorem literals_of_mapM {ts : List Tree} {vs : List Value} (all : ts.mapM Tree.value? = some vs) :
    ts = vs.map .literal := by
  induction ts generalizing vs with
  | nil =>
      cases all
      rfl
  | cons t ts ih =>
      rw [List.mapM_cons] at all
      cases first : t.value? with
      | none => simp [first] at all
      | some v =>
          cases others : ts.mapM Tree.value? with
          | none => simp [first, others] at all
          | some ws =>
              simp only [first, others, Option.pure_def, Option.bind_eq_bind, Option.bind_some,
                Option.some.injEq] at all
              subst all
              have literal : t = .literal v := by
                cases t <;> simp_all [Tree.value?]
              rw [literal, ih others, List.map_cons]

/-- Items that make no list of values are not all literals. -/
theorem call_of_mapM {ts : List Tree} (none : ts.mapM Tree.value? = none) :
    ∃ t ∈ ts, t.isLiteral = false := by
  induction ts with
  | nil => exact nomatch none
  | cons t ts ih =>
      cases first : t.value? with
      | none => exact ⟨t, List.mem_cons_self, by rw [Tree.isLiteral, first]; rfl⟩
      | some v =>
          cases others : ts.mapM Tree.value? with
          | none =>
              obtain ⟨u, mem, call⟩ := ih others
              exact ⟨u, List.mem_cons_of_mem t mem, call⟩
          | some vs => simp [first, others] at none

namespace Script

/-! ## Tokens without fractions -/

/-- Whether a token can be written in the compact language, where there is no literal for every
floating point number. -/
def Token.IsExact : Token → Prop
  | .name text => IsName text
  | .int value => value ≠ Int64.minValue
  | .float _ => False
  | _ => True

theorem ofNat_ne_minValue {n : Nat} (small : n < 9223372036854775808) :
    Int64.ofNat n ≠ Int64.minValue := by
  intro same
  have value := congrArg Int64.toInt same
  rw [Int64.toInt_ofNat_of_lt small] at value
  have least : Int64.minValue.toInt = -9223372036854775808 := rfl
  omega

theorem isExact_of_toToken {numeral : Numeral} {t : Token} (made : numeral.toToken = .ok t)
    (noFloat : ∀ x, t ≠ .float x) : t.IsExact := by
  rw [Numeral.toToken] at made
  split at made
  · cases made
    exact absurd rfl (noFloat _)
  · dsimp only at made
    split at made
    · rename_i small
      cases made
      exact ofNat_ne_minValue small
    · cases made

theorem isName_takeWhile {c : Char} {rest : List Char} (starts : Text.startsName c = true) :
    IsName (String.ofList ((c :: rest).takeWhile Text.continuesName)) := by
  constructor
  · simp [Text.continuesName_of_startsName starts, starts]
  · intro d mem
    rw [String.toList_ofList] at mem
    exact List.mem_takeWhile_imp mem

theorem isExact_of_scan {c : Char} {rest : List Char} {place : Text.Position} {t : Token}
    {r : Remainder} (scanned : scan c rest place = .ok (some t, r)) (noFloat : ∀ x, t ≠ .float x) :
    t.IsExact := by
  unfold scan at scanned
  simp only at scanned
  split at scanned
  · cases scanned
    trivial
  split at scanned
  · cases scanned
  split at scanned
  · cases scanned
  split at scanned
  · split at scanned
    · rename_i token after number
      cases scanned
      rw [scanNumber] at number
      dsimp only at number
      split at number
      · cases number
      · split at number
        · rename_i made
          cases number
          exact isExact_of_toToken made noFloat
        · cases number
    · cases scanned
  split at scanned
  · split at scanned
    · cases scanned
      trivial
    · cases scanned
  split at scanned
  · rename_i starts
    cases scanned
    exact isName_takeWhile starts
  · split at scanned
    · cases scanned
      trivial
    · cases scanned

/-- The tokens of a text can be written in the compact language, floating point literals apart. -/
theorem isExact_of_tokens {cs : List Char} {place : Text.Position} {placed : List Placed}
    (cut : tokens cs place = .ok placed) :
    ∀ t ∈ placed, (∀ x, t.token ≠ .float x) → t.token.IsExact := by
  fun_induction tokens cs place generalizing placed with
  | case1 place =>
      cases cut
      rintro t (_ | ⟨_, ⟨⟩⟩) -
      trivial
  | case2 place c rest fault _ => exact nomatch cut
  | case3 place c rest token r scanned shorter fault stopped ih => exact nomatch cut
  | case4 place c rest token r scanned shorter more read ih =>
      cases cut
      cases token with
      | none => exact ih read
      | some t => exact List.forall_mem_cons.mpr ⟨isExact_of_scan scanned, ih read⟩

end Script

/-! ## Expressions and statements -/

/-- An expression binds nothing outside of the functions that it makes. -/
structure Tree.IsExpression (ctx : Context) (names : List (List String)) (t : Tree) : Prop where
  isTerm : t.BindsPlain → t.IsTerm
  inScope : t.InScope ctx names
  binds : t.binds = []

/-- A statement, and the names that are in view behind it. -/
structure Tree.IsStatement (ctx : Context) (names : List (List String)) (t : Tree)
    (names' : List (List String)) : Prop where
  isTerm : t.BindsPlain → t.IsTerm
  inScope : t.InScope ctx names
  names : names' = names.modifyHead (t.binds ++ ·)

/-- Statements, one after another, and the names that are in view behind them. -/
structure Tree.AreStatements (ctx : Context) (names : List (List String)) (ts : List Tree)
    (names' : List (List String)) : Prop where
  areTerms : (∀ name ∈ Tree.definesAll ts, IsPlain name) → Tree.AreTerms ts
  inScope : Tree.AreInScope ctx ts names
  names : names' = names.modifyHead (Tree.bindsAll ts ++ ·)

namespace Tree

variable {ctx : Context} {names : List (List String)} {t u : Tree} {ts : List Tree}

theorem areStatements_nil : AreStatements ctx names [] names :=
  ⟨fun _ => by rw [AreTerms]; trivial, by rw [AreInScope]; trivial,
    (modifyHead_nil_append names).symm⟩

theorem IsStatement.cons {names' names'' : List (List String)}
    (first : t.IsStatement ctx names names') (rest : AreStatements ctx names' ts names'') :
    AreStatements ctx names (t :: ts) names'' := by
  have between := first.names
  refine ⟨fun plain => ?_, ?_, ?_⟩
  · rw [definesAll, List.forall_mem_append] at plain
    rw [AreTerms]
    exact ⟨first.isTerm plain.1, rest.areTerms plain.2⟩
  · rw [AreInScope, ← between]
    exact ⟨first.inScope, rest.inScope⟩
  · rw [rest.names, between, bindsAll, modifyHead_append]

theorem IsExpression.isStatement (h : t.IsExpression ctx names) : t.IsStatement ctx names names :=
  ⟨h.isTerm, h.inScope, by rw [h.binds, modifyHead_nil_append]⟩

/-- What is known of arguments that are expressions. -/
theorem areStatements_of_expressions (each : ∀ t ∈ ts, t.IsExpression ctx names) :
    AreStatements ctx names ts names := by
  induction ts with
  | nil => exact areStatements_nil
  | cons t ts ih =>
      obtain ⟨first, others⟩ := List.forall_mem_cons.mp each
      exact first.isStatement.cons (ih others)

theorem bindsAll_of_expressions (each : ∀ t ∈ ts, t.IsExpression ctx names) : bindsAll ts = [] := by
  induction ts with
  | nil => rfl
  | cons t ts ih =>
      obtain ⟨first, others⟩ := List.forall_mem_cons.mp each
      rw [bindsAll, ih others, first.binds, List.append_nil]

namespace IsExpression

theorem literal {v : Value} (constant : v.IsConstant) (inScope : v.InScope ctx names) :
    (Tree.literal v).IsExpression ctx names :=
  ⟨fun _ => by rw [IsTerm]; exact constant, by rw [InScope]; exact inScope, binds_literal v⟩

theorem call {head : Head} (each : ∀ t ∈ ts, t.IsExpression ctx names) (binds : head.binds = [])
    (isTerm : AreTerms ts → (Tree.call head ts).IsTerm) (inScope : head.InScope ctx names) :
    (Tree.call head ts).IsExpression ctx names := by
  have args := areStatements_of_expressions each
  have none := bindsAll_of_expressions each
  refine ⟨fun plain => isTerm (args.areTerms fun name mem => plain name ?_), ?_, ?_⟩
  · rw [defines, binds, List.nil_append]
    exact mem
  · rw [InScope, binds, none, List.append_nil, modifyHead_nil_append]
    exact ⟨args.inScope, inScope⟩
  · rw [Tree.binds, none, binds, List.append_nil]

/-- Operators in front of as many operands as they take. -/
theorem op {operator : Operator} (each : ∀ t ∈ ts, t.IsExpression ctx names)
    (arity : ts.length = operator.arity) : (Tree.op operator ts).IsExpression ctx names :=
  call each rfl (fun terms => by rw [IsTerm]; exact ⟨arity, terms⟩) trivial

theorem list (each : ∀ t ∈ ts, t.IsExpression ctx names) :
    (Script.Parser.list ts).IsExpression ctx names := by
  rw [Script.Parser.list]
  split
  · rename_i vs all
    obtain rfl := literals_of_mapM all
    have items := areStatements_of_expressions each
    refine ⟨fun plain => ?_, ?_, binds_literal _⟩
    · rw [BindsPlain, defines, Value.defines, ← definesAll_literals] at plain
      rw [IsTerm, Value.IsConstant, ← areTerms_literals]
      exact items.areTerms plain
    · rw [InScope, Value.InScope, ← areInScope_literals]
      exact items.inScope
  · rename_i none
    refine call each rfl (fun terms => ?_) trivial
    rw [IsTerm]
    exact ⟨call_of_mapM none, terms⟩

theorem closure {params : List String} {names' : List (List String)}
    (isName : ∀ name ∈ params, IsName name)
    (body : AreStatements ctx (params.reverse :: names) ts names') :
    (Tree.literal (.closure params (.sequence ts) none)).IsExpression ctx names := by
  refine ⟨fun plain => ?_, ?_, binds_literal _⟩
  · rw [BindsPlain, defines, Value.defines, Tree.sequence, defines, Head.binds,
      List.nil_append] at plain
    rw [IsTerm, Value.IsConstant, Tree.sequence, IsScript]
    exact ⟨rfl, isName, body.areTerms plain⟩
  · rw [InScope, Value.InScope, Tree.sequence, InScope, Head.binds, modifyHead_nil_append]
    exact ⟨body.inScope, trivial⟩

theorem negated (h : t.IsExpression ctx names) : (Script.Rho.negated t).IsExpression ctx names := by
  unfold Script.Rho.negated
  split
  · rename_i value
    have isTerm := h.isTerm (fun _ mem => nomatch mem)
    rw [IsTerm, Value.IsConstant] at isTerm
    refine literal ?_ (by simp only [Value.InScope])
    rw [Value.IsConstant]
    intro same
    exact isTerm (by rw [← Int64.neg_neg (a := value), same]; rfl)
  · have isTerm := h.isTerm (fun _ mem => nomatch mem)
    rw [IsTerm, Value.IsConstant] at isTerm
    · exact isTerm.elim
    all_goals simp
  · exact op (List.forall_mem_singleton.mpr h) rfl

end IsExpression

/-- A binding, whose name is in view in its own value. -/
theorem IsStatement.bind {name : String} (isName : IsName name)
    (value : t.IsExpression ctx (names.modifyHead (name :: ·))) :
    (Tree.bind name t).IsStatement ctx names (names.modifyHead (name :: ·)) := by
  have single := List.forall_mem_singleton.mpr value
  have args := areStatements_of_expressions single
  refine ⟨fun plain => ?_, ?_, ?_⟩
  · rw [BindsPlain, Tree.bind, defines, List.forall_mem_append] at plain
    rw [Tree.bind, IsTerm]
    exact ⟨⟨isName, plain.1 name List.mem_cons_self⟩, rfl, args.areTerms plain.2⟩
  · rw [Tree.bind, InScope]
    exact ⟨args.inScope, trivial⟩
  · rw [Tree.bind, Tree.binds, bindsAll_of_expressions single]
    rfl

end Tree

/-! ## The readers of the language of statements -/

namespace Script.Rho

open Script.Parser

variable {ctx : Context} {names : List (List String)}

/-- What the readers give that a reader of terms uses, whichever names are in view. -/
structure Inner.Gives (ctx : Context) (inner : Inner) : Prop where
  expression : ∀ levels names, names ≠ [] →
    Keeps Token.IsExact (inner.expression levels) names (Tree.IsExpression ctx names)
  unary : ∀ levels names, names ≠ [] →
    Keeps Token.IsExact (inner.unary levels) names (Tree.IsExpression ctx names)
  statements : ∀ levels closing names, names ≠ [] →
    Script.Gives Token.IsExact (inner.statements levels closing) names
      (Tree.AreStatements ctx names)

section Parts

variable {expression : Parser Tree}
  (gives : Keeps Token.IsExact expression names (Tree.IsExpression ctx names))

theorem nested_gives {p : Nat → Parser Tree} {right : Tree → List (List String) → Prop}
    (h : ∀ levels, Script.Gives Token.IsExact (p levels) names right) :
    ∀ levels, Script.Gives Token.IsExact (nested p levels) names right
  | 0 => .of_fails (.after (fun _ => fails_complainAt _ _) _)
  | levels + 1 => h levels

include gives in
theorem expressionList_gives (close : Symbol) : ∀ allowance,
    Keeps Token.IsExact (expressionList expression close allowance) names
      fun ts => ∀ t ∈ ts, Tree.IsExpression ctx names t
  | 0 => .of_fails (fails_complain _)
  | allowance + 1 => by
      rw [expressionList]
      refine (Gives.check close).andThen fun closed _ => ?_
      split
      · exact Gives.advance.andThen fun _ _ => .pure ⟨rfl, nofun⟩
      refine Gives.peek.andThen fun t _ => ?_
      split
      · exact .of_fails (fails_complain _)
      refine gives.andThen fun first right => ?_
      have goesOn : Keeps Token.IsExact (do
          let rest ← expressionList expression close allowance
          return first :: rest) names fun ts => ∀ t ∈ ts, Tree.IsExpression ctx names t :=
        (expressionList_gives close allowance).andThen fun rest rights =>
          .pure ⟨rfl, List.forall_mem_cons.mpr ⟨right, rights⟩⟩
      refine (Gives.check .comma).andThen fun comma _ => ?_
      split
      · exact Gives.advance.andThen fun _ _ => goesOn
      refine (Gives.check close).andThen fun closed _ => ?_
      split
      · exact goesOn
      · exact .of_fails (.after (fun _ => .before (fails_complain _) _) _)

theorem members_gives (place : Text.Position) : ∀ allowance,
    Keeps Token.IsExact (members place allowance) names fun others => ∀ name ∈ others, IsName name
  | 0 => .pure ⟨rfl, nofun⟩
  | allowance + 1 => by
      rw [members]
      refine (Gives.check .dot).andThen fun dot _ => ?_
      split
      · refine Gives.advance.andThen fun _ _ => Gives.advance.andThen fun t isExact => ?_
        split
        · rename_i name shape
          rw [shape] at isExact
          refine (members_gives place allowance).andThen fun others right => ?_
          exact .pure ⟨rfl, List.forall_mem_cons.mpr ⟨isExact, right⟩⟩
        · exact .of_fails (fails_complainAt _ _)
      · exact .pure ⟨rfl, nofun⟩

theorem reference_gives (path : Path) (place : Text.Position) (isReference : path.IsReference) :
    Keeps Token.IsExact (reference ctx path place) names (Tree.IsExpression ctx names) := by
  refine (Gives.requireRoot ctx path place).andThen fun _ seen => .pure ⟨rfl, ?_⟩
  exact ⟨fun _ => by rw [Tree.IsTerm]; exact isReference, by rw [Tree.InScope]; exact seen, rfl⟩

/-- Without registered types what is called is a name in view. -/
theorem call_gives (bare : ∀ name, ctx.registry.contains name = false) (path : Path)
    (isReference : path.IsReference) {args : List Tree}
    (each : ∀ t ∈ args, t.IsExpression ctx names) (place : Text.Position) :
    Keeps Token.IsExact (call ctx path args place) names (Tree.IsExpression ctx names) := by
  rw [call]
  refine (Gives.sees ctx path.root).andThen fun found seen => ?_
  rw [bare, Bool.and_false]
  refine (Gives.requireRoot ctx path place).andThen fun _ seen => .pure ⟨rfl, ?_⟩
  exact .call each rfl (fun terms => by rw [Tree.IsTerm]; exact ⟨isReference, terms⟩) seen

include gives in
theorem path_gives (bare : ∀ name, ctx.registry.contains name = false) {first : String}
    (isName : IsName first) (isPlain : IsPlain first) (place : Text.Position) :
    Keeps Token.IsExact (path ctx expression first place) names (Tree.IsExpression ctx names) := by
  rw [path]
  refine Gives.remaining.andThen fun room _ => (members_gives place room).andThen
    fun others right => ?_
  have isReference : Path.IsReference ⟨first :: others⟩ :=
    ⟨List.cons_ne_nil _ _, isPlain, List.forall_mem_cons.mpr ⟨isName, right⟩⟩
  refine (Gives.check .lParen).andThen fun applied _ => ?_
  split
  · refine Gives.advance.andThen fun _ _ => ?_
    have args : Keeps Token.IsExact (do expressionList expression .rParen (← remaining)) names
        fun ts => ∀ t ∈ ts, Tree.IsExpression ctx names t :=
      Gives.remaining.andThen fun room _ => expressionList_gives gives .rParen room
    exact args.bracketed.andThen fun args each => call_gives bare _ isReference each place
  · exact reference_gives _ place isReference

theorem parameters_gives : ∀ (allowance : Nat) (names : List (List String)),
    Script.Gives Token.IsExact (parameters allowance) names fun params names' =>
      names' = names.modifyHead (params.reverse ++ ·) ∧ ∀ name ∈ params, IsName name
  | 0, _ => .of_fails (.after (fun _ => fails_complain _) _)
  | allowance + 1, names => by
      rw [parameters]
      refine Gives.advance.andThen fun t isExact => ?_
      split
      · exact .pure ⟨(modifyHead_nil_append names).symm, nofun⟩
      · rename_i name shape
        rw [shape] at isExact
        refine (Gives.define name).bind fun _ names₁ shown => ?_
        have goesOn : Script.Gives Token.IsExact (do
            let rest ← parameters allowance
            return name :: rest) names₁ fun params names' =>
              names' = names.modifyHead (params.reverse ++ ·) ∧ ∀ name ∈ params, IsName name := by
          refine (parameters_gives allowance names₁).bind fun rest names₂ right => ?_
          refine .pure ⟨?_, List.forall_mem_cons.mpr ⟨isExact, right.2⟩⟩
          rw [right.1, shown, List.reverse_cons]
          exact modifyHead_append [name] rest.reverse names
        refine (Gives.check .comma).andThen fun comma _ => ?_
        split
        · exact Gives.advance.andThen fun _ _ => goesOn
        · exact goesOn
      · exact .of_fails (fails_complain _)

/-! ### Functions -/

variable {statements : Closing → Parser (List Tree)}
  (body : ∀ closing names, names ≠ [] →
    Script.Gives Token.IsExact (statements closing) names (Tree.AreStatements ctx names))

include body

theorem block_gives {names : List (List String)} (opened : names ≠ []) :
    Script.Gives Token.IsExact (block statements) names fun t names' =>
      ∃ ts, t = .sequence ts ∧ Tree.AreStatements ctx names ts names' := by
  rw [block]
  refine Gives.get.andThen fun outer _ => (Gives.rebracketed _).bind fun _ _ shown => ?_
  rw [shown]
  refine (body .brace names opened).bind fun ts names' right => ?_
  refine (Gives.check .rBrace).andThen fun closed _ => ?_
  split
  · refine Gives.advance.andThen fun _ _ => (Gives.rebracketed _).bind fun _ _ shown => ?_
    rw [shown]
    exact .pure ⟨ts, rfl, right⟩
  · exact .of_fails (fails_complain _)

/-- A function whose parameters are in view already. -/
theorem closure_gives {params : List String} (isName : ∀ name ∈ params, IsName name) :
    Script.Gives Token.IsExact (do return .literal (.closure params (← block statements) none))
      (params.reverse :: names) fun t names' =>
        (∃ inner, names' = inner :: names) ∧ Tree.IsExpression ctx names t := by
  refine (block_gives body (List.cons_ne_nil _ _)).bind fun t names' right => ?_
  obtain ⟨ts, rfl, right⟩ := right
  exact .pure ⟨⟨_, right.names⟩, .closure isName right⟩

theorem function_gives (opened : names ≠ []) :
    Keeps Token.IsExact (function statements) names (Tree.IsExpression ctx names) := by
  rw [function]
  refine (Gives.expect .lParen _).andThen fun _ _ => Gives.body opened ?_
  have params : Script.Gives Token.IsExact (do parameters (← remaining))
      ([] :: names) fun params names' =>
      names' = params.reverse :: names ∧ ∀ name ∈ params, IsName name := by
    refine Gives.remaining.andThen fun room _ => ?_
    refine (parameters_gives room _).mono fun params names' right => ⟨?_, right.2⟩
    rw [right.1, List.modifyHead_cons, List.append_nil]
  refine params.bracketed.bind fun params names' right => ?_
  obtain ⟨rfl, isName⟩ := right
  exact (Gives.expect .lBrace _).andThen fun _ _ => closure_gives body isName

end Parts

/-! ### Expressions -/

section Storey

variable (bare : ∀ name, ctx.registry.contains name = false) {inner : Inner}
  (gives : inner.Gives ctx) {names : List (List String)} (opened : names ≠ [])

include bare gives opened

theorem primary_gives (levels : Nat) :
    Keeps Token.IsExact (primary ctx inner levels) names (Tree.IsExpression ctx names) := by
  have inside := gives.expression levels names opened
  rw [primary]
  refine Gives.advance.andThen fun first isExact => ?_
  split <;> rename_i shape
  · rw [shape] at isExact
    exact .pure ⟨rfl, .literal (by rw [Value.IsConstant]; exact isExact)
      (by simp only [Value.InScope])⟩
  · rw [shape] at isExact
    exact isExact.elim
  · exact .pure ⟨rfl, .literal (by simp only [Value.IsConstant]) (by simp only [Value.InScope])⟩
  · exact .pure ⟨rfl, .literal (by simp only [Value.IsConstant]) (by simp only [Value.InScope])⟩
  · exact .pure ⟨rfl, .literal (by simp only [Value.IsConstant]) (by simp only [Value.InScope])⟩
  · rename_i noTrue noFalse
    rw [shape] at isExact
    split
    · exact function_gives (gives.statements levels) opened
    · exact path_gives inside bare isExact ⟨noTrue, noFalse⟩ first.place
  · exact Gives.bracketed <| inside.andThen fun t right =>
      (Gives.expect .rParen _).andThen fun _ _ => .pure ⟨rfl, right⟩
  · have items : Keeps Token.IsExact
        (do expressionList (inner.expression levels) .rBracket (← remaining)) names
        fun ts => ∀ t ∈ ts, Tree.IsExpression ctx names t :=
      Gives.remaining.andThen fun room _ => expressionList_gives inside .rBracket room
    exact items.bracketed.andThen fun items each => .pure ⟨rfl, .list each⟩
  · exact Gives.body opened (closure_gives (gives.statements levels) (List.forall_mem_nil IsName))
  · exact .of_fails (fails_complainAt _ _)

theorem unary_gives (levels : Nat) :
    Keeps Token.IsExact (unary ctx inner levels) names (Tree.IsExpression ctx names) := by
  have operand := nested_gives (gives.unary · names opened) levels
  rw [unary]
  refine Gives.peek.andThen fun t _ => ?_
  split
  · refine Gives.advance.andThen fun _ _ => operand.andThen fun t right => ?_
    exact .pure ⟨rfl, .op (List.forall_mem_singleton.mpr right) rfl⟩
  · exact Gives.advance.andThen fun _ _ => operand.andThen fun t right => .pure ⟨rfl, right.negated⟩
  · exact primary_gives bare gives opened levels

end Storey

/-- A binding behind its name. -/
theorem binding_gives (opened : names ≠ []) {name : String} (isName : IsName name)
    {value : Parser Tree}
    (reads : ∀ names, names ≠ [] → Keeps Token.IsExact value names (Tree.IsExpression ctx names)) :
    Script.Gives Token.IsExact (do define name; return .bind name (← value) : Parser Tree) names
      fun t names' => t.IsStatement ctx names names' := by
  refine (Gives.define name).bind fun _ names₁ shown => ?_
  rw [shown]
  exact (reads _ (by simpa using opened)).andThen fun v right => .pure (.bind isName right)

theorem mem_of_operatorOf? {operators : List (Symbol × Operator)} {t : Token} {operator : Operator}
    (found : operatorOf? operators t = some operator) : ∃ mark, (mark, operator) ∈ operators := by
  unfold operatorOf? at found
  split at found
  · rename_i mark
    obtain ⟨before, after, rfl, -⟩ := List.lookup_eq_some_iff.mp found
    exact ⟨mark, by simp⟩
  · exact nomatch found

theorem chain_gives (operators : List (Symbol × Operator)) {operand : Parser Tree}
    (binary : ∀ entry ∈ operators, entry.2.arity = 2)
    (h : Keeps Token.IsExact operand names (Tree.IsExpression ctx names)) :
    ∀ (allowance : Nat) (left : Tree), left.IsExpression ctx names →
      Keeps Token.IsExact (chain operators operand allowance left) names
        (Tree.IsExpression ctx names)
  | 0, left, right => .pure ⟨rfl, right⟩
  | allowance + 1, left, isLeft => by
      rw [chain]
      refine Gives.peek.andThen fun t _ => ?_
      split
      · exact .pure ⟨rfl, isLeft⟩
      · rename_i operator found
        refine Gives.advance.andThen fun _ _ => h.andThen fun right isRight => ?_
        refine chain_gives operators binary h allowance _ (.op ?_ ?_)
        · exact List.forall_mem_cons.mpr ⟨isLeft, List.forall_mem_singleton.mpr isRight⟩
        · obtain ⟨mark, mem⟩ := mem_of_operatorOf? found
          exact (binary _ mem).symm

theorem binary_gives {operand : Parser Tree}
    (h : Keeps Token.IsExact operand names (Tree.IsExpression ctx names)) :
    ∀ levels : List (List (Symbol × Operator)),
      (∀ operators ∈ levels, ∀ entry ∈ operators, entry.2.arity = 2) →
      Keeps Token.IsExact (binary operand levels) names (Tree.IsExpression ctx names)
  | [], _ => h
  | operators :: tighter, two => by
      obtain ⟨own, others⟩ := List.forall_mem_cons.mp two
      have inner := binary_gives h tighter others
      rw [binary]
      exact inner.andThen fun first right => Gives.remaining.andThen fun room _ =>
        chain_gives operators own inner room first right

section Storey

variable (bare : ∀ name, ctx.registry.contains name = false) {inner : Inner}
  (gives : inner.Gives ctx)

include bare gives

theorem expression_gives (opened : names ≠ []) (levels : Nat) :
    Keeps Token.IsExact (expression ctx inner levels) names (Tree.IsExpression ctx names) :=
  nested_gives (fun levels =>
    binary_gives (unary_gives bare gives opened levels) precedence (by decide)) levels

/-! ### Statements -/

theorem statement_gives (opened : names ≠ []) (levels : Nat) :
    Script.Gives Token.IsExact (statement ctx inner levels) names
      fun t names' => t.IsStatement ctx names names' := by
  have plain : Script.Gives Token.IsExact (expression ctx inner levels) names
      fun t names' => t.IsStatement ctx names names' :=
    (expression_gives bare gives opened levels).mono fun t names' ⟨same, right⟩ =>
      same ▸ right.isStatement
  rw [statement]
  refine Gives.get.andThen fun c known => Gives.peek.andThen fun t isExact => ?_
  split
  · rename_i first name second
    have isName : IsName name := by
      obtain ⟨token, mem, shape⟩ := Option.map_eq_some_iff.mp second
      have heard := known.1.rest token (List.drop_subset 1 c.rest (List.mem_of_mem_head? mem))
      rw [shape] at heard
      exact heard
    split
    · exact Gives.advance.andThen fun _ _ => Gives.advance.andThen fun _ _ =>
        binding_gives opened isName fun names opened => function_gives
          (gives.statements levels) opened
    · exact plain
  · exact Gives.advance.andThen fun _ _ => Gives.advance.andThen fun _ _ =>
      binding_gives opened isExact fun names opened => expression_gives bare gives opened levels
  · exact plain

end Storey

theorem statementsWith_gives {statement : Parser Tree} (closing : Closing)
    (reads : ∀ names, names ≠ [] → Script.Gives Token.IsExact statement names
      fun t names' => t.IsStatement ctx names names') :
    ∀ (allowance : Nat) (names : List (List String)), names ≠ [] →
      Script.Gives Token.IsExact (statementsWith statement closing allowance) names
        (Tree.AreStatements ctx names)
  | 0, _, _ => .pure Tree.areStatements_nil
  | allowance + 1, names, opened => by
      rw [statementsWith]
      refine Gives.bind (Gives.step id ?_ (fun _ => rfl) fun _ => rfl) fun _ _ shown => ?_
      · exact fun c shows =>
          ⟨shows.finish, fun t mem => shows.rest t ((List.dropWhile_suffix _).subset mem)⟩
      rw [shown]
      refine Gives.here.andThen fun next _ => ?_
      split
      · exact .pure Tree.areStatements_nil
      refine (reads names opened).bind fun first names₁ isFirst => ?_
      refine Gives.here.andThen fun behind _ => ?_
      split
      · have opened₁ : names₁ ≠ [] := by
          rw [isFirst.names]
          simpa using opened
        refine (statementsWith_gives closing reads allowance names₁ opened₁).bind
          fun rest names₂ isRest => ?_
        exact .pure (isFirst.cons isRest)
      · exact .of_fails (fails_complain _)

/-! ### Scripts -/

theorem storey_gives (bare : ∀ name, ctx.registry.contains name = false) {inner : Inner}
    (gives : inner.Gives ctx) : (storey ctx inner).Gives ctx where
  expression levels _ opened := expression_gives bare gives opened levels
  unary levels _ opened := unary_gives bare gives opened levels
  statements levels closing names opened := Gives.remaining.andThen fun room _ =>
    statementsWith_gives closing (fun _ opened => statement_gives bare gives opened levels) room
      names opened

theorem tower_gives (bare : ∀ name, ctx.registry.contains name = false) :
    ∀ height, (tower ctx height).Gives ctx
  | 0 => ⟨fun _ _ _ => .of_fails (fails_complain _), fun _ _ _ => .of_fails (fails_complain _),
      fun _ _ _ _ => .of_fails (fails_complain _)⟩
  | height + 1 =>
      have gives := storey_gives bare (tower_gives bare height)
      ⟨gives.expression, gives.unary, gives.statements⟩

/-- A script without floating point literals, read where no types are registered, is a script of the
compact language that finds in view all names that it uses.  Reading it makes no instances. -/
theorem parse_gives (bare : ∀ name, ctx.registry.contains name = false) {placed : List Placed}
    (isExact : ∀ t ∈ placed, t.token.IsExact) {serial next : Nat} {t : Tree}
    (parsed : parse ctx placed serial = .ok (t, next)) :
    next = serial ∧ (t.BindsPlain → t.IsScript) ∧ t.InScope ctx [[]] := by
  rw [parse] at parsed
  dsimp only at parsed
  cases read : (tower ctx (placed.length + 1)).statements nestingLimit .finish
      ⟨placed, 0, [[]], serial⟩ with
  | error fault =>
      rw [read] at parsed
      exact nomatch parsed
  | ok r =>
      obtain ⟨ts, c⟩ := r
      rw [read] at parsed
      cases parsed
      obtain ⟨-, serial, right⟩ := (tower_gives bare _).statements nestingLimit .finish [[]]
        (List.cons_ne_nil _ _) (c := ⟨placed, 0, [[]], serial⟩) ⟨trivial, isExact⟩ rfl read
      refine ⟨serial, fun plain => ?_, ?_⟩
      · rw [Tree.BindsPlain, Tree.sequence, Tree.defines, Head.binds, List.nil_append] at plain
        rw [Tree.sequence, Tree.IsScript]
        exact right.areTerms plain
      · rw [Tree.sequence, Tree.InScope, Head.binds, modifyHead_nil_append]
        exact ⟨right.inScope, trivial⟩

end Script.Rho

end PeerScript
