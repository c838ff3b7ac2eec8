import PeerScript.Proofs.Visibility

/-!
# The language of statements in another context

What the readers of the language of statements read in one context they read in any other one, or
they stop at the first name that is missing there.
-/

set_option autoImplicit false

namespace PeerScript.Script.Rho

open Script.Parser
open Text (Position)

variable {placed : List Placed} {ctx₀ ctx : Context} {names : List (List String)}

/-- What is known of the readers that a reader of terms uses, whichever names are in view. -/
structure Inner.Check (placed : List Placed) (ctx : Context) (inner₀ inner : Inner) : Prop where
  expression : ∀ levels, AreTerms placed ctx (inner₀.expression levels) (inner.expression levels)
  unary : ∀ levels, AreTerms placed ctx (inner₀.unary levels) (inner.unary levels)
  statements : ∀ levels closing names, names ≠ [] →
    Checks placed (inner₀.statements levels closing) (inner.statements levels closing) names
      (Tree.AllMiss ctx names)

theorem nested_checks {p₀ p : Nat → Parser Tree}
    (terms : ∀ levels, AreTerms placed ctx (p₀ levels) (p levels)) :
    ∀ levels, AreTerms placed ctx (nested p₀ levels) (nested p levels)
  | 0 => fun _ _ => .of_fails (.after (fun _ => fails_complainAt _ _) _)
  | levels + 1 => terms levels

section Parts

variable {expression₀ expression : Parser Tree} (terms : AreTerms placed ctx expression₀ expression)

include terms

theorem expressionList_checks (close : Symbol) :
    ∀ (allowance : Nat) (names : List (List String)), names ≠ [] →
    Checks placed (expressionList expression₀ close allowance)
      (expressionList expression close allowance) names
      (Tree.AllMiss ctx names)
  | 0, _, _ => .of_fails (fails_complain _)
  | allowance + 1, names, opened => by
      rw [expressionList, expressionList]
      refine (Checks.check close).andThen fun closed _ => ?_
      split
      · exact Checks.advance.andThen fun _ _ => .pure Tree.allMiss_nil
      refine Checks.peek.andThen fun t _ => ?_
      split
      · exact .of_fails (fails_complain _)
      refine (terms names opened).bind fun first names₁ missed isFirst => ?_
      have goesOn : Checks placed
          (do
            let rest ← expressionList expression₀ close allowance
            return first :: rest)
          (do
            let rest ← expressionList expression close allowance
            return first :: rest) names₁ fun ts names₂ more => Tree.AllMiss ctx names ts names₂
            (missed ++ more) := by
        refine (expressionList_checks close allowance names₁ (isFirst.opened opened)).bind
          fun rest names₂ more isRest => ?_
        exact .pure (by simpa using isFirst.cons isRest)
      refine (Checks.check .comma).andThen fun comma _ => ?_
      split
      · exact Checks.advance.andThen fun _ _ => goesOn
      refine (Checks.check close).andThen fun closes _ => ?_
      split
      · exact goesOn
      · exact .of_fails (.after (fun _ => .before (fails_complain _) _) _)

theorem bracketedList_checks (close : Symbol) (opened : names ≠ []) :
    Checks placed (bracketed (do expressionList expression₀ close (← remaining)))
      (bracketed (do expressionList expression close (← remaining))) names
    (Tree.AllMiss ctx names) :=
  Checks.bracketed
    (Checks.remaining.andThen fun room _ => expressionList_checks terms close room names opened)

end Parts

theorem members_checks (place : Position) : ∀ allowance,
    Looks placed (members place allowance) names fun _ => True
  | 0 => .pure ⟨rfl, rfl, trivial⟩
  | allowance + 1 => by
      rw [members]
      refine (Checks.check .dot).andThen fun dotted _ => ?_
      split
      · refine Checks.advance.andThen fun _ _ => Checks.advance.andThen fun t _ => ?_
        split
        · exact (members_checks place allowance).andThen fun _ _ => .pure ⟨rfl, rfl, trivial⟩
        · exact .of_fails (fails_complainAt _ _)
      · exact .pure ⟨rfl, rfl, trivial⟩

theorem parameters_checks : ∀ (allowance : Nat) (names : List (List String)),
    Checks placed (parameters allowance) (parameters allowance) names
      fun params names' missed => names' = names.modifyHead (params.reverse ++ ·) ∧ missed = []
  | 0, _ => .of_fails (.after (fun _ => fails_complain _) _)
  | allowance + 1, names => by
      rw [parameters]
      refine Checks.advance.andThen fun t _ => ?_
      split
      · exact .pure ⟨(modifyHead_nil_append names).symm, rfl⟩
      · rename_i name _
        refine (Checks.define name).bind fun _ names₁ missed known => ?_
        obtain ⟨shown, nothing⟩ := known
        subst shown nothing
        have goesOn : Checks placed
            (do
              let rest ← parameters allowance
              return name :: rest)
            (do
              let rest ← parameters allowance
              return name :: rest) (names.modifyHead (name :: ·)) fun params names' missed =>
              names' = names.modifyHead (params.reverse ++ ·) ∧ [] ++ missed = [] := by
          refine (parameters_checks allowance _).bind fun rest names₂ missed known => ?_
          obtain ⟨shown, nothing⟩ := known
          subst nothing
          refine .pure ⟨?_, rfl⟩
          rw [shown, List.reverse_cons]
          exact modifyHead_append [name] rest.reverse names
        refine (Checks.check .comma).andThen fun comma _ => ?_
        split
        · exact Checks.advance.andThen fun _ _ => goesOn
        · exact goesOn
      · exact .of_fails (fails_complain _)

section Functions

variable {statements₀ statements : Closing → Parser (List Tree)}
  (inside : ∀ closing names, names ≠ [] →
    Checks placed (statements₀ closing) (statements closing) names (Tree.AllMiss ctx names))

include inside

theorem block_checks (opened : names ≠ []) :
    Checks placed (block statements₀) (block statements) names fun t names' missed =>
      ∃ ts, t = .sequence ts ∧ Tree.AllMiss ctx names ts names' missed := by
  rw [block, block]
  refine Checks.get.andThen fun c _ => (Checks.rebracketed _).bind fun _ names' missed known => ?_
  obtain ⟨shown, nothing⟩ := known
  subst shown nothing
  refine (inside .brace _ opened).bind fun ts names' missed areStatements => ?_
  refine (Checks.check .rBrace).andThen fun closed _ => ?_
  split
  · refine Checks.advance.andThen fun _ _ => (Checks.rebracketed _).bind
      fun _ names'' more known => ?_
    obtain ⟨shown, nothing⟩ := known
    subst shown nothing
    exact .pure ⟨ts, rfl, by simpa using areStatements⟩
  · exact .of_fails (fails_complain _)

/-- A function whose parameters are in view already. -/
theorem closure_checks (params : List String) :
    Checks placed (do return .literal (.closure params (← block statements₀) none) : Parser Tree)
      (do return .literal (.closure params (← block statements) none)) (params.reverse :: names)
      fun t names' missed => (∃ inner, names' = inner :: names) ∧
      t.Misses ctx names names missed := by
  refine (block_checks inside (List.cons_ne_nil _ _)).bind
    fun t names' missed ⟨ts, isBody, misses⟩ => ?_
  subst isBody
  exact .pure (by simpa using misses.closure)

theorem function_checks (opened : names ≠ []) :
    Checks placed (function statements₀) (function statements) names (Tree.Misses ctx names) := by
  rw [function, function]
  refine (Checks.expect .lParen _).andThen fun _ _ => ?_
  refine (Checks.body opened (fun t missed => t.Misses ctx names names missed) ?_).mono
    fun t names' missed known => known.1 ▸ known.2
  have params : Checks placed (bracketed (do parameters (← remaining)))
      (bracketed (do parameters (← remaining)))
      ([] :: names) fun params names' missed => names' = params.reverse :: names ∧ missed = [] := by
    refine Checks.bracketed (Checks.remaining.andThen fun room _ => ?_)
    refine (parameters_checks room _).mono fun params names' missed known => ⟨?_, known.2⟩
    rw [known.1, List.modifyHead_cons, List.append_nil]
  refine params.bind fun params names' missed known => ?_
  obtain ⟨shown, nothing⟩ := known
  subst shown nothing
  exact (Checks.expect .lBrace _).andThen fun _ _ => closure_checks inside params

end Functions

theorem chain_checks (operators : List (Symbol × Operator)) {operand₀ operand : Parser Tree}
    (terms : AreTerms placed ctx operand₀ operand) :
    ∀ (allowance : Nat) (left : Tree) (names names₁ : List (List String)) (missed : List String),
      names₁ ≠ [] → left.Misses ctx names names₁ missed →
      Checks placed (chain operators operand₀ allowance left)
        (chain operators operand allowance left) names₁
        fun t names' more => t.Misses ctx names names' (missed ++ more)
  | 0, left, _, _, _, _, isLeft => .pure (by simpa using isLeft)
  | allowance + 1, left, names, names₁, missed, opened, isLeft => by
      rw [chain, chain]
      refine Checks.peek.andThen fun t _ => ?_
      split
      · exact .pure (by simpa using isLeft)
      · rename_i operator found
        refine Checks.advance.andThen fun _ _ => (terms names₁ opened).bind
          fun right names₂ more isRight => ?_
        have whole := isLeft.pair operator isRight
        refine (chain_checks operators terms allowance _ names names₂ _
          (isRight.opened opened) whole).mono fun t names' more' misses => ?_
        rwa [List.append_assoc] at misses

theorem binary_checks {operand₀ operand : Parser Tree}
    (terms : AreTerms placed ctx operand₀ operand) :
    ∀ levels : List (List (Symbol × Operator)),
      AreTerms placed ctx (binary operand₀ levels) (binary operand levels)
  | [] => terms
  | operators :: tighter => fun names opened => by
      have inner := binary_checks terms tighter
      rw [binary, binary]
      exact (inner names opened).bind fun first names₁ missed isFirst =>
        Checks.remaining.andThen fun room _ =>
        chain_checks operators inner room first names names₁ missed (isFirst.opened opened) isFirst

theorem statementsWith_checks {statement₀ statement : Parser Tree} (closing : Closing)
    (terms : AreTerms placed ctx statement₀ statement) :
    ∀ (allowance : Nat) (names : List (List String)), names ≠ [] →
      Checks placed (statementsWith statement₀ closing allowance)
        (statementsWith statement closing allowance) names
        (Tree.AllMiss ctx names)
  | 0, _, _ => .pure Tree.allMiss_nil
  | allowance + 1, names, opened => by
      rw [statementsWith, statementsWith]
      refine Checks.bind (Checks.step id (fun c => (List.dropWhile_suffix _).subset) fun _ => rfl)
        fun _ names' missed known => ?_
      obtain ⟨shown, nothing⟩ := known
      subst nothing
      rw [shown, id_eq]
      refine Checks.here.andThen fun next _ => ?_
      split
      · exact .pure Tree.allMiss_nil
      refine (terms names opened).bind fun first names₁ missed isFirst =>
        Checks.here.andThen fun behind _ => ?_
      split
      · refine (statementsWith_checks closing terms allowance names₁ (isFirst.opened opened)).bind
          fun rest names₂ more isRest => ?_
        exact .pure (by simpa using isFirst.cons isRest)
      · exact .of_fails (fails_complain _)

section Storey

variable (bare₀ : ∀ name, ctx₀.registry.contains name = false)
  (bare : ∀ name, ctx.registry.contains name = false)
  {inner₀ inner : Inner} (checks : inner₀.Check placed ctx inner)

include bare₀ bare checks

theorem path_checks (levels : Nat) {first : String} {place : Position}
    (mem : ⟨.name first, place⟩ ∈ placed) (opened : names ≠ []) :
    Checks placed (path ctx₀ (inner₀.expression levels) first place)
      (path ctx (inner.expression levels) first place)
      names (Tree.Misses ctx names) := by
  rw [path, path]
  refine Checks.remaining.andThen fun room _ => (members_checks place room).andThen fun others _ =>
    (Checks.check .lParen).andThen fun applied _ => ?_
  split
  · refine Checks.advance.andThen fun _ _ => ?_
    refine (bracketedList_checks (checks.expression levels) .rParen opened).bind
      fun args names' missed isArgs => ?_
    refine (Checks.call bare₀ bare args mem).mono fun t names'' more known => ?_
    obtain ⟨same, isCall, looked⟩ := known
    subst same isCall looked
    exact isArgs.call (.invoke _) rfl
  · refine (Checks.reference mem).mono fun t names' missed known => ?_
    obtain ⟨same, isReference, looked⟩ := known
    subst same isReference looked
    exact Tree.misses_reference _

theorem primary_checks (levels : Nat) :
    AreTerms placed ctx (primary ctx₀ inner₀ levels) (primary ctx inner levels) := by
  intro names opened
  rw [primary, primary]
  refine Checks.advance.andThen fun first mem => ?_
  have constant : ∀ {v : Value}, v.missing ctx names = [] →
      Checks placed (pure (.literal v)) (pure (.literal v)) names (Tree.Misses ctx names) :=
    fun nothing => .pure (Tree.misses_literal nothing)
  have inside := checks.statements levels
  split <;> rename_i shape
  · exact constant (by rw [Value.missing] <;> simp)
  · exact constant (by rw [Value.missing] <;> simp)
  · exact constant (by rw [Value.missing] <;> simp)
  · exact constant (by rw [Value.missing] <;> simp)
  · exact constant (by rw [Value.missing] <;> simp)
  · have isToken := mem _ shape
    rw [← show (⟨first.token, first.place⟩ : Placed) = first from rfl, shape] at isToken
    split
    · exact function_checks inside opened
    · exact path_checks bare₀ bare checks levels isToken opened
  · refine Checks.bracketed
      ((checks.expression levels names opened).bind fun t names' missed misses => ?_)
    exact (Checks.expect .rParen _).andThen fun _ _ => .pure (by simpa using misses)
  · refine (bracketedList_checks (checks.expression levels) .rBracket opened).bind
      fun items names' missed isItems => ?_
    exact .pure (by simpa using isItems.list)
  · exact (Checks.body opened _ (closure_checks inside [])).mono fun t names' missed known =>
      known.1 ▸ known.2
  · exact .of_fails (fails_complainAt _ _)

theorem unary_checks (levels : Nat) :
    AreTerms placed ctx (unary ctx₀ inner₀ levels) (unary ctx inner levels) := by
  intro names opened
  have operand := nested_checks checks.unary levels names opened
  rw [unary, unary]
  refine Checks.peek.andThen fun t _ => ?_
  split
  · refine Checks.advance.andThen fun _ _ => operand.bind fun t names' missed misses => ?_
    exact .pure (by simpa using misses.unary .not)
  · refine Checks.advance.andThen fun _ _ => operand.bind fun t names' missed misses => ?_
    exact .pure (by simpa using misses.negated)
  · exact primary_checks bare₀ bare checks levels names opened

theorem expression_checks (levels : Nat) :
    AreTerms placed ctx (expression ctx₀ inner₀ levels) (expression ctx inner levels) :=
  nested_checks
    (fun levels => binary_checks (unary_checks bare₀ bare checks levels) precedence) levels

theorem statement_checks (levels : Nat) :
    AreTerms placed ctx (statement ctx₀ inner₀ levels) (statement ctx inner levels) := by
  intro names opened
  have plain := expression_checks bare₀ bare checks levels names opened
  -- The name is in view in the value that it is bound to.
  have binding : ∀ (name : String) {value₀ value : Parser Tree}, AreTerms placed ctx value₀ value →
      Checks placed (do define name; return .bind name (← value₀) : Parser Tree)
        (do define name; return .bind name (← value)) names (Tree.Misses ctx names) := by
    intro name value₀ value reads
    refine (Checks.define name).bind fun _ names₁ missed ⟨shown, nothing⟩ => ?_
    subst shown nothing
    refine (reads _ (by simpa using opened)).bind fun value names₂ missed isValue => ?_
    exact .pure (by simpa using isValue.bind)
  rw [statement, statement]
  refine Checks.get.andThen fun c _ => Checks.peek.andThen fun t _ => ?_
  split
  · split
    · exact Checks.advance.andThen fun _ _ => Checks.advance.andThen fun _ _ =>
        binding _ fun names opened => function_checks (checks.statements levels) opened
    · exact plain
  · exact Checks.advance.andThen fun _ _ => Checks.advance.andThen fun _ _ =>
      binding _ (expression_checks bare₀ bare checks levels)
  · exact plain

theorem storey_checks : (storey ctx₀ inner₀).Check placed ctx (storey ctx inner) where
  expression := expression_checks bare₀ bare checks
  unary := unary_checks bare₀ bare checks
  statements levels closing names opened := Checks.remaining.andThen fun room _ =>
    statementsWith_checks closing (statement_checks bare₀ bare checks levels) room names opened

end Storey

theorem tower_checks (bare₀ : ∀ name, ctx₀.registry.contains name = false)
    (bare : ∀ name, ctx.registry.contains name = false) :
    ∀ height, (tower ctx₀ height).Check placed ctx (tower ctx height)
  | 0 => ⟨fun _ _ _ => .of_fails (fails_complain _), fun _ _ _ => .of_fails (fails_complain _),
      fun _ _ _ _ => .of_fails (fails_complain _)⟩
  | height + 1 =>
      have checks := storey_checks bare₀ bare (tower_checks bare₀ bare height)
      ⟨checks.expression, checks.unary, checks.statements⟩

end PeerScript.Script.Rho
