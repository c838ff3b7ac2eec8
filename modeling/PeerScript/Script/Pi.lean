import PeerScript.Script.Cursor

/-!
# Pi, the compact language

    script  :=  term*
    term    :=  literal  |  '-' number  |  path  |  name '=' term  |  path '(' args ')'
             |  operator '(' args ')'  |  '[' term* ']'  |  '{' ('|' name* '|')? term* '}'
    args    :=  (term (',' term)*)?

Line ends mean nothing.  Every written form of a value is a term of this language.
-/

set_option autoImplicit false

namespace PeerScript.Script.Pi

open Text (Position)
open PeerScript.Script.Parser

/-- The operator of two operands that a symbol spells. -/
def binary? : Symbol → Option Operator
  | .plus => some .add | .minus => some .sub | .star => some .mul | .slash => some .div
  | .percent => some .rem | .eq => some .eq | .ne => some .ne | .lt => some .lt | .le => some .le
  | .gt => some .gt | .ge => some .ge | .and => some .and | .or => some .or
  | _ => none

/-- Whether a symbol can head an application. -/
def isOperator (mark : Symbol) : Bool := mark == .bang || (binary? mark).isSome

/-- The operator that a symbol spells in front of `count` operands. -/
def operatorFor (mark : Symbol) (count : Nat) : Except Complaint Operator :=
  match mark, count with
  | .minus, 1 => .ok .neg
  | .bang, 1 => .ok .not
  | .bang, n => .error (.operandCount "!" 1 n)
  | _, 2 =>
      match binary? mark with
      | some operator => .ok operator
      | none => .error .notAnOperator
  | _, n => .error (.operandCount (((binary? mark).map Operator.symbol).getD "?") 2 n)

/-- Terms up to the symbol that closes them.  `allowance` bounds their number. -/
def termsUntil (term : Parser Tree) (close : Symbol) (opening : Position) (delimiter : String) :
    Nat → Parser (List Tree)
  | 0 => complainAt opening (.unclosed delimiter)
  | allowance + 1 => do
      if ← check close then
        let _ ← advance
        return []
      else
        match ← peek with
        | .finish => complainAt opening (.unclosed delimiter)
        | _ =>
            let first ← term
            let rest ← termsUntil term close opening delimiter allowance
            return first :: rest

/-- The terms behind a comma or an opening parenthesis, up to the closing one. -/
def argsAfter (term : Parser Tree) : Nat → Parser (List Tree)
  | 0 => do complain (.expected "',' or ')'" (← peek))
  | allowance + 1 => do
      let first ← term
      match ← peek with
      | .symbol .comma =>
          let _ ← advance
          let rest ← argsAfter term allowance
          return first :: rest
      | .symbol .rParen =>
          let _ ← advance
          return [first]
      | other => complain (.expected "',' or ')'" other)

/-- Arguments in parentheses. -/
def args (term : Parser Tree) : Parser (List Tree) := do
  expect .lParen "'('"
  if ← check .rParen then
    let _ ← advance
    return []
  else argsAfter term (← remaining)

/-- An operator in front of its operands. -/
def application (term : Parser Tree) (mark : Symbol) (place : Position) : Parser Tree := do
  if ← check .lParen then
    let operands ← args term
    match operatorFor mark operands.length with
    | .ok operator => return .op operator operands
    | .error complaint => complainAt place complaint
  else complainAt place .bareOperator

/-- The members behind the first name of a path. -/
def members (place : Position) : Nat → Parser (List String)
  | 0 => return []
  | allowance + 1 => do
      if ← check .dot then
        let _ ← advance
        match (← advance).token with
        | .name name =>
            let rest ← members place allowance
            return name :: rest
        | other => complainAt place (.expected "member name after '.'" other)
      else return []

/-- What begins with a name: a binding, a call or a reference. -/
def named (ctx : Context) (term : Parser Tree) (first : String) (place : Position) :
    Parser Tree := do
  let path : Path := ⟨first :: (← members place (← remaining))⟩
  match ← peek, path.isName with
  | .symbol .assign, true =>
      let _ ← advance
      define path.root
      let value ← term
      return .bind path.root value
  | .symbol .lParen, _ =>
      let operands ← args term
      call ctx path operands place
  | _, _ => reference ctx path place

/-- Parameter names up to the bar that closes them. -/
def parameters (opening : Position) : Nat → Parser (List String)
  | 0 => do complainAt opening (.expected "parameter name" (← peek))
  | allowance + 1 => do
      match (← advance).token with
      | .symbol .pipe => return []
      | .name name =>
          define name
          let rest ← parameters opening allowance
          return name :: rest
      | other => complainAt opening (.expected "parameter name" other)

/-- A function behind its opening brace. -/
def function (term : Parser Tree) (opening : Position) : Parser Tree :=
  body do
    let params ←
      if ← check .pipe then
        let _ ← advance
        parameters opening (← remaining)
      else pure []
    let statements ← termsUntil term .rBrace opening "\x7b" (← remaining)
    return .literal (.closure params (.sequence statements) none)

/-- One term whose parts are read by `term`. -/
def termWith (ctx : Context) (term : Parser Tree) : Parser Tree := do
  let first ← advance
  match first.token with
  | .int value => return .literal (.int value)
  | .float value => return .literal (.float value)
  | .str text => return .literal (.str text)
  | .name "true" => return .literal (.bool true)
  | .name "false" => return .literal (.bool false)
  | .name name => named ctx term name first.place
  | .symbol .minus =>
      match ← peek with
      | .int value =>
          let _ ← advance
          return .literal (.int (-value))
      | .float value =>
          let _ ← advance
          return .literal (.float (-value))
      | _ => application term .minus first.place
  | .symbol .lBracket =>
      let items ← termsUntil term .rBracket first.place "[" (← remaining)
      return list items
  | .symbol .lBrace => function term first.place
  | .symbol mark =>
      if isOperator mark then application term mark first.place
      else complainAt first.place (.unexpected first.token)
  | other => complainAt first.place (.unexpected other)

/-- A term in which terms nest at most `levels` deep. -/
def term (ctx : Context) : Nat → Parser Tree
  | 0 => do complainAt (← here).place (.nestingTooDeep nestingLimit)
  | levels + 1 => termWith ctx (term ctx levels)

/-- The terms of a whole script. -/
def script (term : Parser Tree) : Nat → Parser (List Tree)
  | 0 => return []
  | allowance + 1 => do
      match ← peek with
      | .finish => return []
      | _ =>
          let first ← term
          let rest ← script term allowance
          return first :: rest

/-- Whether a token counts. -/
def counts (t : Placed) : Bool :=
  match t.token with
  | .newline => false
  | _ => true

/-- Reads a script of the compact language. -/
def parse (ctx : Context) (tokens : List Placed) (serial : Nat) : Except Fault (Tree × Nat) := do
  let tokens := tokens.filter counts
  let (terms, c) ← script (term ctx nestingLimit) tokens.length ⟨tokens, 0, [[]], serial⟩
  return (.sequence terms, c.serial)

end PeerScript.Script.Pi
