import PeerScript.Operator
import PeerScript.Number.Layout

/-!
# Values and script trees

A tree is what the text of a script stands for; a value is what lies on a data stack or is bound to
a name.  The two depend on each other: a literal of a tree is a value, and a function value carries
the tree of its body.

A function value may have a *home*, the frame in which it was made.  The home does not count as part
of what the value is: two functions with the same parameters and the same body are equal.
-/

set_option autoImplicit false

namespace PeerScript

/-- The name of a frame of bindings. -/
abbrev FrameId := Nat

/-- The functions that every scope of builtins holds. -/
inductive Builtin where
  | assert | print | depth | drop | dup | swap | clear | len | str | type
  deriving DecidableEq, Repr, Inhabited

namespace Builtin

/-- The name under which a builtin is installed. -/
def name : Builtin → String
  | assert => "assert" | print => "print" | depth => "depth" | drop => "drop" | dup => "dup"
  | swap => "swap" | clear => "clear" | len => "len" | str => "str" | type => "type"

/-- All builtins. -/
def all : List Builtin := [assert, print, depth, drop, dup, swap, clear, len, str, type]

end Builtin

/-- The type of an instance: which type it is, and what diagnostics call it. -/
structure Kind where
  key : String
  label : String
  deriving DecidableEq, Repr, Inhabited

/-- An application object that scripts may call, known by its type and its number. -/
structure Object where
  typeName : String
  serial : Nat
  deriving DecidableEq, Repr, Inhabited

/-- What a call of a tree does with the values of its arguments. -/
inductive Head where
  /-- a list of statements: the arguments run in order and nothing more happens -/
  | sequence
  /-- bind one value to a name in the current scope -/
  | bind (name : String)
  | op (operator : Operator)
  /-- call what the path names -/
  | invoke (path : Path)
  /-- make an instance of a registered type -/
  | construct (typeName : String)
  /-- collect the values into a list -/
  | list
  deriving DecidableEq, Repr, Inhabited

mutual

/-- A value. -/
inductive Value where
  | bool (b : Bool)
  | int (i : Int64)
  | float (x : Float)
  | str (s : String)
  | list (items : List Value)
  /-- a function, with the frame it was made in if it was made by running a literal -/
  | closure (params : List String) (body : Tree) (home : Option FrameId)
  | native (b : Builtin)
  /-- an instance of a registered type; the serial number tells instances apart -/
  | handle (kind : Kind) (serial : Nat) (fields : List Value)
  | object (o : Object)

/-- A script tree. -/
inductive Tree where
  | literal (v : Value)
  | reference (path : Path)
  | call (head : Head) (args : List Tree)

end

instance : Inhabited Value := ⟨.bool false⟩
instance : Inhabited Tree := ⟨.literal default⟩

namespace Value

/-- The short name of the type of a value. -/
def typeName : Value → String
  | bool _ => "bool"
  | int _ => "int"
  | float _ => "float"
  | str _ => "string"
  | list _ => "list"
  | closure .. => "continuation"
  | native _ => "native"
  | handle kind _ _ => kind.label
  | object o => o.typeName

/-- Whether a value counts as true: zero, and what is empty, does not. -/
def truthy : Value → Bool
  | bool b => b
  | int i => i != 0
  | float x => x != 0.0
  | str s => !s.isEmpty
  | list items => !items.isEmpty
  | _ => true

/-- The integer that a value is. -/
def int? : Value → Option Int64
  | int i => some i
  | _ => none

/-- The number that a value is, as a floating point number. -/
def float? : Value → Option Float
  | int i => some i.toFloat
  | float x => some x
  | _ => none

/-- The text that a value is. -/
def str? : Value → Option String
  | str s => some s
  | _ => none

/-- Whether a value can be called by its name alone. -/
def isInvocable : Value → Bool
  | closure .. | native _ => true
  | _ => false

end Value

namespace Tree

/-- Statements in order. -/
def sequence (statements : List Tree) : Tree := .call .sequence statements

/-- A binding of one value. -/
def bind (name : String) (value : Tree) : Tree := .call (.bind name) [value]

/-- An operator with its operands. -/
def op (operator : Operator) (args : List Tree) : Tree := .call (.op operator) args

/-- A call of what a path names. -/
def invoke (path : Path) (args : List Tree) : Tree := .call (.invoke path) args

/-- The value of a literal. -/
def value? : Tree → Option Value
  | literal v => some v
  | _ => none

/-- Whether a tree is a literal. -/
def isLiteral (t : Tree) : Bool := t.value?.isSome

/-- The number of statements of a sequence; any other tree is one statement. -/
def statements : Tree → Nat
  | call .sequence args => args.length
  | _ => 1

/-- The only statement of a sequence that has just one; any other tree is left as it is. -/
def bare : Tree → Tree
  | call .sequence [statement] => statement
  | t => t

end Tree

/-! ## Equality

Numbers are equal across the two types of numbers, instances and objects only to themselves. -/

mutual

/-- Equality of values. -/
def Value.same : Value → Value → Bool
  | .bool a, .bool b => a == b
  | .int a, .int b => a == b
  | .float a, .float b => a == b
  | .int a, .float b => a.toFloat == b
  | .float a, .int b => b.toFloat == a
  | .str a, .str b => a == b
  | .list a, .list b => Value.sameAll a b
  | .closure ps body _, .closure qs body' _ => ps == qs && Tree.same body body'
  | .native a, .native b => a == b
  | .handle _ a _, .handle _ b _ => a == b
  | .object a, .object b => a == b
  | _, _ => false

/-- Equality of lists of values, part by part. -/
def Value.sameAll : List Value → List Value → Bool
  | [], [] => true
  | a :: as, b :: bs => Value.same a b && Value.sameAll as bs
  | _, _ => false

/-- Equality of trees. -/
def Tree.same : Tree → Tree → Bool
  | .literal a, .literal b => Value.same a b
  | .reference p, .reference q => p == q
  | .call h as, .call k bs => h == k && Tree.sameAll as bs
  | _, _ => false

/-- Equality of lists of trees, part by part. -/
def Tree.sameAll : List Tree → List Tree → Bool
  | [], [] => true
  | a :: as, b :: bs => Tree.same a b && Tree.sameAll as bs
  | _, _ => false

end

instance : BEq Value := ⟨Value.same⟩
instance : BEq Tree := ⟨Tree.same⟩

end PeerScript
