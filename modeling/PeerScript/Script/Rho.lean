import PeerScript.Script.Cursor

/-!
# Rho, the language of statements

Statements are separated by line ends or semicolons, operators stand between their operands, and
`fun` makes functions.  Line ends inside parentheses and brackets do not end a statement, except
inside the braces of a function body.

The grammar is recursive in three places: an expression inside delimiters, the operand of a prefix
operator, and the statements of a body.  `Inner` holds the readers for these, and `tower` ties the
knot: each storey of it reads with the one below, and a script has no more storeys than tokens.
-/

set_option autoImplicit false

namespace PeerScript.Script.Rho

open Text (Position)
open PeerScript.Script.Parser

/-- Binary operators by precedence, loosest first. -/
def precedence : List (List (Symbol × Operator)) :=
  [[(.or, .or)],
   [(.and, .and)],
   [(.eq, .eq), (.ne, .ne)],
   [(.lt, .lt), (.le, .le), (.gt, .gt), (.ge, .ge)],
   [(.plus, .add), (.minus, .sub)],
   [(.star, .mul), (.slash, .div), (.percent, .rem)]]

/-- The word that begins a function. -/
def keyword : String := "fun"

/-- What ends a list of statements. -/
inductive Closing where
  | brace
  | finish
  deriving DecidableEq, Repr

/-- Whether a token ends a list of statements. -/
def Closing.isAt (closing : Closing) : Token → Bool
  | .symbol .rBrace => closing == .brace
  | .finish => closing == .finish
  | _ => false

/-- Readers for the parts that stand inside delimiters or behind a prefix operator.  The readers of
terms take the number of levels that may still nest. -/
structure Inner where
  expression : Nat → Parser Tree
  unary : Nat → Parser Tree
  statements : Nat → Closing → Parser (List Tree)

/-- Reads one level deeper. -/
def nested (p : Nat → Parser Tree) : Nat → Parser Tree
  | 0 => do complainAt (← here).place (.nestingTooDeep nestingLimit)
  | levels + 1 => p levels

/-- Expressions up to and including the symbol that closes them.  A comma may follow the last. -/
def expressionList (expression : Parser Tree) (close : Symbol) : Nat → Parser (List Tree)
  | 0 => complain .endOfInput
  | allowance + 1 => do
      if ← check close then
        let _ ← advance
        return []
      else
        match ← peek with
        | .finish => complain .endOfInput
        | _ =>
            let first ← expression
            if ← check .comma then
              let _ ← advance
            else unless ← check close do
              complain (.expected "',' or closing delimiter" (← peek))
            let rest ← expressionList expression close allowance
            return first :: rest

/-- The members behind the first name of a path. -/
def members (place : Position) : Nat → Parser (List String)
  | 0 => return []
  | allowance + 1 => do
      if ← check .dot then
        let _ ← advance
        match (← advance).token with
        | .name name =>
            let rest ← members place allowance
            return name :: rest
        | other => complainAt place (.expected "member name after '.'" other)
      else return []

/-- A path with its arguments, or without any. -/
def path (ctx : Context) (expression : Parser Tree) (first : String) (place : Position) :
    Parser Tree := do
  let path : Path := ⟨first :: (← members place (← remaining))⟩
  if ← check .lParen then
    let _ ← advance
    let args ← bracketed (do expressionList expression .rParen (← remaining))
    call ctx path args place
  else reference ctx path place

/-- Parameter names up to the closing parenthesis; commas between them may be left out. -/
def parameters : Nat → Parser (List String)
  | 0 => do complain (.expected "parameter name" (← peek))
  | allowance + 1 => do
      match (← advance).token with
      | .symbol .rParen => return []
      | .name name =>
          define name
          if ← check .comma then
            let _ ← advance
          let rest ← parameters allowance
          return name :: rest
      | other => complain (.expected "parameter name" other)

/-- The statements of a body behind its opening brace.  Line ends count again inside of it. -/
def block (statements : Closing → Parser (List Tree)) : Parser Tree := do
  let outside := (← get).brackets
  modify fun c => { c with brackets := 0 }
  let body ← statements .brace
  if ← check .rBrace then
    let _ ← advance
    modify fun c => { c with brackets := outside }
    return .sequence body
  else complain (.unclosed "\x7b")

/-- The parameters and the body of a function. -/
def function (statements : Closing → Parser (List Tree)) : Parser Tree := do
  expect .lParen "'(' after fun"
  body do
    let params ← bracketed (do parameters (← remaining))
    expect .lBrace "'\x7b'"
    return .literal (.closure params (← block statements) none)

/-- What needs no operator. -/
def primary (ctx : Context) (inner : Inner) (levels : Nat) : Parser Tree := do
  let first ← advance
  match first.token with
  | .int value => return .literal (.int value)
  | .float value => return .literal (.float value)
  | .str text => return .literal (.str text)
  | .name "true" => return .literal (.bool true)
  | .name "false" => return .literal (.bool false)
  | .name name =>
      if name = keyword then function (inner.statements levels)
      else path ctx (inner.expression levels) name first.place
  | .symbol .lParen =>
      bracketed do
        let inside ← inner.expression levels
        expect .rParen "')'"
        return inside
  | .symbol .lBracket =>
      let items ← bracketed (do expressionList (inner.expression levels) .rBracket (← remaining))
      return list items
  | .symbol .lBrace =>
      body do return .literal (.closure [] (← block (inner.statements levels)) none)
  | other => complainAt first.place (.expected "expression" other)

/-- A negated operand.  The negation of a numeral is a literal. -/
def negated : Tree → Tree
  | .literal (.int value) => .literal (.int (-value))
  | .literal (.float value) => .literal (.float (-value))
  | operand => .op .neg [operand]

/-- Prefix operators and what they are applied to. -/
def unary (ctx : Context) (inner : Inner) (levels : Nat) : Parser Tree := do
  match ← peek with
  | .symbol .bang =>
      let _ ← advance
      return .op .not [← nested inner.unary levels]
  | .symbol .minus =>
      let _ ← advance
      return negated (← nested inner.unary levels)
  | _ => primary ctx inner levels

/-- The operator of one precedence level that a token spells. -/
def operatorOf? (operators : List (Symbol × Operator)) : Token → Option Operator
  | .symbol mark => operators.lookup mark
  | _ => none

/-- Operators of one level with their right operands, behind the left operand. -/
def chain (operators : List (Symbol × Operator)) (operand : Parser Tree) :
    Nat → Tree → Parser Tree
  | 0, left => return left
  | allowance + 1, left => do
      match operatorOf? operators (← peek) with
      | none => return left
      | some operator =>
          let _ ← advance
          let right ← operand
          chain operators operand allowance (.op operator [left, right])

/-- Operands joined by the operators of the given levels. -/
def binary (operand : Parser Tree) : List (List (Symbol × Operator)) → Parser Tree
  | [] => operand
  | operators :: tighter => do
      let first ← binary operand tighter
      chain operators (binary operand tighter) (← remaining) first

/-- An expression, which is one level deeper than what it stands in. -/
def expression (ctx : Context) (inner : Inner) : Nat → Parser Tree :=
  nested fun levels => binary (unary ctx inner levels) precedence

/-- A named function, a binding or an expression. -/
def statement (ctx : Context) (inner : Inner) (levels : Nat) : Parser Tree := do
  let second := ((← get).rest.drop 1).head?.map Placed.token
  match ← peek, second with
  | .name first, some (.name name) =>
      if first = keyword then
        let _ ← advance
        let _ ← advance
        define name
        return .bind name (← function (inner.statements levels))
      else expression ctx inner levels
  | .name name, some (.symbol .assign) =>
      let _ ← advance
      let _ ← advance
      define name
      return .bind name (← expression ctx inner levels)
  | _, _ => expression ctx inner levels

/-- Whether a token separates statements. -/
def separates (t : Placed) : Bool :=
  match t.token with
  | .newline | .symbol .semi => true
  | _ => false

/-- Statements up to what closes them, which is left to be read. -/
def statementsWith (statement : Parser Tree) (closing : Closing) : Nat → Parser (List Tree)
  | 0 => return []
  | allowance + 1 => do
      modify fun c => { c with rest := c.rest.dropWhile separates }
      let next ← here
      if closing.isAt next.token || Closing.finish.isAt next.token then return []
      else
        let first ← statement
        let behind ← here
        if separates behind || closing.isAt behind.token then
          let rest ← statementsWith statement closing allowance
          return first :: rest
        else complain (.expected "end of statement" behind.token)

/-- The readers of one storey, which read what stands inside with the storey below. -/
def storey (ctx : Context) (inner : Inner) : Inner where
  expression := expression ctx inner
  unary := unary ctx inner
  statements levels closing := do
    statementsWith (statement ctx inner levels) closing (← remaining)

/-- The readers for scripts in which at most the given number of constructs stand in each other.  A
storey is built when it is entered. -/
def tower (ctx : Context) : Nat → Inner
  | 0 => ⟨fun _ => complain .endOfInput, fun _ => complain .endOfInput,
      fun _ _ => complain .endOfInput⟩
  | height + 1 =>
      ⟨fun levels => (storey ctx (tower ctx height)).expression levels,
        fun levels => (storey ctx (tower ctx height)).unary levels,
        fun levels closing => (storey ctx (tower ctx height)).statements levels closing⟩

/-- Reads a script of the language of statements. -/
def parse (ctx : Context) (tokens : List Placed) (serial : Nat) : Except Fault (Tree × Nat) := do
  let readers := tower ctx (tokens.length + 1)
  let (statements, c) ← readers.statements nestingLimit .finish ⟨tokens, 0, [[]], serial⟩
  return (.sequence statements, c.serial)

end PeerScript.Script.Rho
