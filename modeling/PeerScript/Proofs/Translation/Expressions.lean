import PeerScript.Proofs.Translation.Terms

/-!
# What the language of statements can be read as

What holds of the expressions and statements that the readers return is shown once for the whole
tower of readers: `Makes` says what one storey must make of what stands in delimiters and behind
operators, and `parse_makes` what follows for the statements of a script.
-/

set_option autoImplicit false

namespace PeerScript.Script.Rho

open Script.Parser

/-- Terms of a level are right when the terms that stand in them are.  What stands in delimiters or
behind a prefix operator is one level further in; what stands between operators or behind a name
that is bound is not. -/
structure Makes (P : Token → Prop) (ctx : Context) (part : Nat → Tree → Prop) : Prop where
  outer : ∀ {levels t}, part levels t → part (levels + 1) t
  bool : ∀ levels b, part (levels + 1) (.literal (.bool b))
  int : ∀ levels {i}, P (.int i) → part (levels + 1) (.literal (.int i))
  float : ∀ levels x, part (levels + 1) (.literal (.float x))
  str : ∀ levels text, part (levels + 1) (.literal (.str text))
  reference : ∀ levels first others, part (levels + 1) (.reference ⟨first :: others⟩)
  call : ∀ {levels first others ts} place, (∀ t ∈ ts, part levels t) →
    Returns P (call ctx ⟨first :: others⟩ ts place) (part (levels + 1))
  list : ∀ {levels ts}, (∀ t ∈ ts, part levels t) → part (levels + 1) (Parser.list ts)
  closure : ∀ {levels ts} params, (∀ t ∈ ts, part levels t) →
    part (levels + 1) (.literal (.closure params (.sequence ts) none))
  not : ∀ {levels t}, part levels t → part (levels + 1) (.op .not [t])
  negated : ∀ {levels t}, part levels t → part (levels + 1) (negated t)
  op : ∀ {levels operator t u}, operator.arity = 2 → part levels t → part levels u →
    part levels (.op operator [t, u])
  bind : ∀ {levels t} name, part levels t → part levels (.bind name t)
  named : ∀ {levels ts} name params, (∀ t ∈ ts, part levels t) →
    part levels (.bind name (.literal (.closure params (.sequence ts) none)))

variable {P : Token → Prop} {ctx : Context} {part : Nat → Tree → Prop}

/-- What the readers return that a reader of terms uses. -/
structure Inner.Makes (P : Token → Prop) (part : Nat → Tree → Prop) (inner : Inner) : Prop where
  expression : ∀ levels, Returns P (inner.expression levels) (part levels)
  unary : ∀ levels, Returns P (inner.unary levels) (part (levels + 1))
  statements : ∀ levels closing, Returns P (inner.statements levels closing) fun ts => ∀ t ∈ ts,
    part levels t

theorem nested_returns {p : Nat → Parser Tree}
    (h : ∀ levels, Returns P (p levels) (part (levels + 1))) :
    ∀ levels, Returns P (nested p levels) (part levels)
  | 0 => .of_fails (.after (fun _ => fails_complainAt _ _) _)
  | levels + 1 => h levels

section Parts

variable {expression : Parser Tree} {right : Tree → Prop} (h : Returns P expression right)

include h

theorem expressionList_returns (close : Symbol) :
    ∀ allowance, Returns P (expressionList expression close allowance) fun ts => ∀ t ∈ ts, right t
  | 0 => .of_fails (fails_complain _)
  | allowance + 1 => by
      rw [expressionList]
      refine (Returns.check close).bind fun closed _ => ?_
      split
      · exact Returns.advance.bind fun _ _ => .pure (List.forall_mem_nil _)
      refine Returns.peek.bind fun t _ => ?_
      split
      · exact .of_fails (fails_complain _)
      refine h.bind fun first isRight => (Returns.check .comma).bind fun comma _ => ?_
      have goesOn : Returns P (do
          let rest ← expressionList expression close allowance
          return first :: rest) fun ts => ∀ t ∈ ts, right t :=
        (expressionList_returns close allowance).bind fun rest areRight =>
          .pure (List.forall_mem_cons.mpr ⟨isRight, areRight⟩)
      split
      · exact Returns.advance.bind fun _ _ => goesOn
      · refine (Returns.check close).bind fun closes _ => ?_
        split
        · exact goesOn
        · exact Returns.peek.bind fun _ _ => .of_fails ((fails_complain _).before _)

theorem bracketedList_returns (close : Symbol) :
    Returns P (bracketed (do expressionList expression close (← remaining))) fun ts =>
      ∀ t ∈ ts, right t :=
  Returns.bracketed (Returns.remaining.bind fun room _ => expressionList_returns h close room)

end Parts

theorem members_returns (place : Text.Position) :
    ∀ allowance, Returns P (members place allowance) fun _ => True
  | 0 => .pure trivial
  | allowance + 1 => by
      rw [members]
      refine (Returns.check .dot).bind fun dotted _ => ?_
      split
      · refine Returns.advance.bind fun _ _ => Returns.advance.bind fun t _ => ?_
        split
        · exact (members_returns place allowance).bind fun _ _ => .pure trivial
        · exact .of_fails (fails_complainAt _ _)
      · exact .pure trivial

theorem parameters_returns : ∀ allowance, Returns P (parameters allowance) fun _ => True
  | 0 => .of_fails (.after (fun _ => fails_complain _) _)
  | allowance + 1 => by
      rw [parameters]
      refine Returns.advance.bind fun t _ => ?_
      split
      · exact .pure trivial
      · have goesOn : ∀ name : String, Returns P (do
            let rest ← parameters allowance
            return name :: rest) fun _ => True :=
          fun _ => (parameters_returns allowance).bind fun _ _ => .pure trivial
        refine (Returns.define _).bind fun _ _ => (Returns.check .comma).bind fun comma _ => ?_
        split
        · exact Returns.advance.bind fun _ _ => goesOn _
        · exact goesOn _
      · exact .of_fails (fails_complain _)

section Functions

variable {statements : Closing → Parser (List Tree)} {right : List Tree → Prop}
  (h : Returns P (statements .brace) right)

include h

theorem block_returns : Returns P (block statements) fun t => ∃ ts,
      t = .sequence ts ∧ right ts := by
  rw [block]
  refine Returns.get.bind fun c _ => Returns.bind (.step fun _ => rfl) fun _ _ => ?_
  refine h.bind fun body areRight => (Returns.check .rBrace).bind fun closed _ => ?_
  split
  · exact Returns.advance.bind fun _ _ => Returns.bind (.step fun _ => rfl) fun _ _ =>
      .pure ⟨body, rfl, areRight⟩
  · exact .of_fails (fails_complain _)

/-- A function is a literal that has its statements as the body. -/
theorem function_returns : Returns P (function statements) fun t =>
    ∃ params ts, t = .literal (.closure params (.sequence ts) none) ∧ right ts := by
  rw [function]
  have params : Returns P (bracketed (do parameters (← remaining))) fun _ => True :=
    Returns.bracketed (Returns.remaining.bind fun room _ => parameters_returns room)
  refine (Returns.expect .lParen _).bind fun _ _ => Returns.body ?_
  refine params.bind fun params _ => (Returns.expect .lBrace _).bind fun _ _ => ?_
  refine (block_returns h).bind ?_
  rintro t ⟨ts, isSequence, areRight⟩
  refine .pure ?_
  exact ⟨params, ts, by rw [isSequence], areRight⟩

end Functions

theorem chain_returns {operators : List (Symbol × Operator)}
    (two : ∀ entry ∈ operators, entry.2.arity = 2) {right : Tree → Prop}
    (op : ∀ {operator : Operator} {t u : Tree}, operator.arity = 2 → right t → right u →
      right (.op operator [t, u])) {operand : Parser Tree} (h : Returns P operand right) :
    ∀ (allowance : Nat) {left : Tree}, right left →
    Returns P (chain operators operand allowance left) right
  | 0, _, isLeft => .pure isLeft
  | allowance + 1, left, isLeft => by
      rw [chain]
      refine Returns.peek.bind fun t _ => ?_
      split
      · exact .pure isLeft
      · rename_i operator found
        obtain ⟨mark, mem⟩ := mem_of_operatorOf? found
        exact Returns.advance.bind fun _ _ => h.bind fun right isRight =>
          chain_returns two op h allowance (op (two _ mem) isLeft isRight)

theorem binary_returns {right : Tree → Prop}
    (op : ∀ {operator : Operator} {t u : Tree}, operator.arity = 2 → right t → right u →
      right (.op operator [t, u])) {operand : Parser Tree} (h : Returns P operand right) :
    ∀ tables : List (List (Symbol × Operator)),
      (∀ operators ∈ tables, ∀ entry ∈ operators, entry.2.arity = 2) →
      Returns P (binary operand tables) right
  | [], _ => h
  | operators :: tighter, two => by
      obtain ⟨own, others⟩ := List.forall_mem_cons.mp two
      have operands := binary_returns op h tighter others
      rw [binary]
      exact operands.bind fun first isFirst => Returns.remaining.bind fun room _ =>
        chain_returns own op operands room isFirst

theorem statementsWith_returns {statement : Parser Tree} {right : Tree → Prop}
    (h : Returns P statement right) (closing : Closing) :
    ∀ allowance, Returns P (statementsWith statement closing allowance) fun ts => ∀ t ∈ ts, right t
  | 0 => .pure nofun
  | allowance + 1 => by
      rw [statementsWith]
      refine Returns.bind (.drop fun c => (List.dropWhile_suffix _).subset) fun _ _ =>
        Returns.here.bind fun next _ => ?_
      split
      · exact .pure nofun
      refine h.bind fun first isFirst => Returns.here.bind fun behind _ => ?_
      split
      · exact (statementsWith_returns h closing allowance).bind fun rest areRest =>
          .pure (List.forall_mem_cons.mpr ⟨isFirst, areRest⟩)
      · exact .of_fails (fails_complain _)

section Storey

variable (makes : Makes P ctx part) {inner : Inner} (inside : inner.Makes P part)

include makes inside

theorem path_returns (levels : Nat) (first : String) (place : Text.Position) :
    Returns P (path ctx (inner.expression levels) first place) (part (levels + 1)) := by
  rw [path]
  refine Returns.remaining.bind fun room _ => (members_returns place room).bind fun others _ =>
    (Returns.check .lParen).bind fun applied _ => ?_
  split
  · exact Returns.advance.bind fun _ _ =>
      (bracketedList_returns (inside.expression levels) .rParen).bind fun args areRight =>
        makes.call place areRight
  · exact .reference ctx place (makes.reference levels first others)

theorem primary_returns (levels : Nat) :
    Returns P (primary ctx inner levels) (part (levels + 1)) := by
  rw [primary]
  refine Returns.advance.bind fun first known => ?_
  split <;> rename_i shape
  · exact .pure (makes.int levels (shape ▸ known))
  · exact .pure (makes.float levels _)
  · exact .pure (makes.str levels _)
  · exact .pure (makes.bool levels _)
  · exact .pure (makes.bool levels _)
  · split
    · refine (function_returns (inside.statements levels .brace)).mono ?_
      rintro t ⟨params, ts, rfl, areRight⟩
      exact makes.closure params areRight
    · exact path_returns makes inside levels _ _
  · exact Returns.bracketed ((inside.expression levels).bind fun t isRight =>
      (Returns.expect .rParen _).bind fun _ _ => .pure (makes.outer isRight))
  · exact (bracketedList_returns (inside.expression levels) .rBracket).bind fun items areRight =>
      .pure (makes.list areRight)
  · refine Returns.body ((block_returns (inside.statements levels .brace)).bind ?_)
    rintro t ⟨ts, rfl, areRight⟩
    exact .pure (makes.closure [] areRight)
  · exact .of_fails (fails_complainAt _ _)

theorem unary_returns (levels : Nat) : Returns P (unary ctx inner levels) (part (levels + 1)) := by
  have operand := nested_returns inside.unary levels
  rw [unary]
  refine Returns.peek.bind fun t _ => ?_
  split
  · exact Returns.advance.bind fun _ _ => operand.bind fun t isRight => .pure (makes.not isRight)
  · exact Returns.advance.bind fun _ _ => operand.bind fun t isRight =>
      .pure (makes.negated isRight)
  · exact primary_returns makes inside levels

theorem expression_returns (levels : Nat) : Returns P (expression ctx inner levels) (part levels) :=
  nested_returns (fun levels =>
    binary_returns makes.op (unary_returns makes inside levels) precedence (by decide)) levels

theorem statement_returns (levels : Nat) :
    Returns P (statement ctx inner levels) (part levels) := by
  have plain : Returns P (expression ctx inner levels) (part levels) :=
    expression_returns makes inside levels
  rw [statement]
  refine Returns.get.bind fun c _ => Returns.peek.bind fun t _ => ?_
  split
  · split
    · refine Returns.advance.bind fun _ _ => Returns.advance.bind fun _ _ =>
        (Returns.define _).bind fun _ _ => ?_
      refine (function_returns (inside.statements levels .brace)).bind ?_
      rintro t ⟨params, ts, rfl, areRight⟩
      exact .pure (makes.named _ params areRight)
    · exact plain
  · exact Returns.advance.bind fun _ _ => Returns.advance.bind fun _ _ =>
      (Returns.define _).bind fun _ _ =>
      plain.bind fun value isRight => .pure (makes.bind _ isRight)
  · exact plain

theorem storey_makes : (storey ctx inner).Makes P part where
  expression := expression_returns makes inside
  unary := unary_returns makes inside
  statements levels closing := Returns.remaining.bind fun room _ =>
    statementsWith_returns (statement_returns makes inside levels) closing room

end Storey

theorem tower_makes (makes : Makes P ctx part) : ∀ height, (tower ctx height).Makes P part
  | 0 => ⟨fun _ => .of_fails (fails_complain _), fun _ => .of_fails (fails_complain _),
      fun _ _ => .of_fails (fails_complain _)⟩
  | height + 1 =>
      have inside := storey_makes makes (tower_makes makes height)
      ⟨inside.expression, inside.unary, inside.statements⟩

/-- A script is a sequence of statements that are right. -/
theorem parse_makes (makes : Makes P ctx part) {placed : List Placed} {serial next : Nat} {t : Tree}
    (finish : P .finish) (known : ∀ t ∈ placed, P t.token)
    (parsed : parse ctx placed serial = .ok (t, next)) :
    ∃ ts, t = .sequence ts ∧ ∀ s ∈ ts, part nestingLimit s := by
  rw [parse] at parsed
  dsimp only at parsed
  cases read : (tower ctx (placed.length + 1)).statements nestingLimit .finish
      ⟨placed, 0, [[]], serial⟩ with
  | error fault =>
      rw [read] at parsed
      cases parsed
  | ok r =>
      obtain ⟨ts, c⟩ := r
      rw [read] at parsed
      cases parsed
      have shows : Cursor.Shows P ⟨placed, 0, [[]], serial⟩ := ⟨finish, known⟩
      exact ⟨ts, rfl, ((tower_makes makes _).statements nestingLimit .finish shows read).2⟩

end PeerScript.Script.Rho
