import PeerScript.Script.Scan
import PeerScript.Registry

/-!
# Reading tokens one after another

A parser moves a cursor over the tokens of a script.  Beside the tokens the cursor carries the names
that the script itself has bound so far, because every name that is met is checked: the names of
each function body that is open, innermost first.  Names bound inside a body, parameters included,
go out of view where the body ends.
-/

set_option autoImplicit false

namespace PeerScript.Script

open Text (Position)

/-- The deepest nesting of terms that a script may use. -/
def nestingLimit : Nat := 256

/-- What the tree of a script depends on besides the text: the names bound outside of it and the
registered types. -/
structure Context where
  isBound : String → Bool
  registry : Registry

/-- A place between two tokens of a script. -/
structure Cursor where
  /-- the tokens that follow, of which the last one is `finish` -/
  rest : List Placed
  /-- the number of open parentheses and brackets within which line ends do not count -/
  brackets : Nat
  /-- the names bound by the script in each open body, innermost first -/
  names : List (List String)
  /-- the serial number of the next instance -/
  serial : Nat
  deriving Inhabited

/-- A parser moves the cursor or fails. -/
abbrev Parser (α : Type) : Type := StateT Cursor (Except Fault) α

namespace Parser

/-- The next token.  Behind the end of a script there is nothing but its end. -/
def here : Parser Placed := do
  return (← get).rest.headD ⟨.finish, .start⟩

/-- Passes over line ends where they do not count. -/
def settle : Parser Unit :=
  modify fun c =>
    if 0 < c.brackets then
      { c with rest := c.rest.dropWhile fun t => match t.token
        with | .newline => true | _ => false }
    else c

/-- Looks at the next token. -/
def peek : Parser Token := do
  settle
  return (← here).token

/-- Takes the next token.  The end of a script is never taken. -/
def advance : Parser Placed := do
  settle
  let next ← here
  modify fun c =>
    match c.rest with
    | _ :: second :: rest => { c with rest := second :: rest }
    | _ => c
  return next

/-- Fails with a complaint about the given place. -/
def complainAt {α : Type} (place : Position) (complaint : Complaint) : Parser α :=
  throw (.malformed place complaint)

/-- Fails with a complaint about the next token. -/
def complain {α : Type} (complaint : Complaint) : Parser α := do
  settle
  complainAt (← here).place complaint

/-- Whether the next token is the given symbol. -/
def check (mark : Symbol) : Parser Bool := do
  match ← peek with
  | .symbol other => return other = mark
  | _ => return false

/-- Takes the given symbol, which the complaint calls `what`. -/
def expect (mark : Symbol) (what : String) : Parser Unit := do
  if ← check mark then
    let _ ← advance
  else complain (.expected what (← peek))

/-- The number of tokens that follow, which bounds every loop over them. -/
def remaining : Parser Nat := do return (← get).rest.length

/-- Reads with one more pair of brackets open. -/
def bracketed {α : Type} (p : Parser α) : Parser α := do
  modify fun c => { c with brackets := c.brackets + 1 }
  let result ← p
  modify fun c => { c with brackets := c.brackets - 1 }
  return result

/-! ## Names -/

/-- Makes a name visible in the innermost body. -/
def define (name : String) : Parser Unit :=
  modify fun c =>
    match c.names with
    | [] => c
    | innermost :: outer => { c with names := (name :: innermost) :: outer }

/-- Reads a function body, whose names go out of view behind it. -/
def body {α : Type} (p : Parser α) : Parser α := do
  modify fun c => { c with names := [] :: c.names }
  let result ← p
  modify fun c => { c with names := if 1 < c.names.length then c.names.tail else c.names }
  return result

/-- Whether a name is visible: bound by the script in an open body, or bound outside. -/
def sees (ctx : Context) (name : String) : Parser Bool := do
  return (← get).names.any (·.contains name) || ctx.isBound name

/-- Fails unless the root of a path is visible. -/
def requireRoot (ctx : Context) (path : Path) (place : Position) : Parser Unit := do
  unless ← sees ctx path.root do throw (.unknownName place path.root)

/-! ## Trees -/

/-- A reference to a visible name. -/
def reference (ctx : Context) (path : Path) (place : Position) : Parser Tree := do
  requireRoot ctx path place
  return .reference path

/-- A call, or an instance when the head is a registered type that no visible name hides.  Fields
that are all literals are decoded at once. -/
def call (ctx : Context) (path : Path) (args : List Tree) (place : Position) : Parser Tree := do
  if path.isName && !(← sees ctx path.root) && ctx.registry.contains path.root then
    match args.mapM Tree.value? with
    | some fields =>
        let c ← get
        match ctx.registry.decode path.root fields c.serial with
        | .ok value =>
            set { c with serial := c.serial + 1 }
            return .literal value
        | .error (.undecodable typeName reason) =>
            complainAt place (.undecodable typeName reason)
        | .error fault => throw fault
    | none => return .call (.construct path.root) args
  else
    requireRoot ctx path place
    return .invoke path args

/-- A list, which is a literal if all its items are. -/
def list (items : List Tree) : Tree :=
  match items.mapM Tree.value? with
  | some values => .literal (.list values)
  | none => .call .list items

end Parser

end PeerScript.Script
