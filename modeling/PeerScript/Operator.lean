/-!
# Operators and paths

The operators of script trees with their operand counts and spellings, and the dotted paths by which
a tree names things.
-/

set_option autoImplicit false

namespace PeerScript

/-- The built-in operators. -/
inductive Operator where
  | add | sub | mul | div | rem
  | eq | ne | lt | le | gt | ge
  | and | or | not | neg
  deriving DecidableEq, Repr, Inhabited

namespace Operator

/-- The number of operands. -/
def arity : Operator → Nat
  | not | neg => 1
  | _ => 2

/-- The spelling, which both surface languages share. -/
def symbol : Operator → String
  | add => "+" | sub => "-" | mul => "*" | div => "/" | rem => "%"
  | eq => "==" | ne => "!=" | lt => "<" | le => "<=" | gt => ">" | ge => ">="
  | and => "&&" | or => "||" | not => "!" | neg => "-"

end Operator

/-- Names joined by dots.  The first one is looked up in a scope, the others are members. -/
structure Path where
  segments : List String
  deriving DecidableEq, Repr, Inhabited

namespace Path

/-- A path of one name. -/
def single (name : String) : Path := ⟨[name]⟩

/-- The name that is looked up in a scope.  The empty path has the empty name. -/
def root (p : Path) : String := p.segments.headD ""

/-- Whether a path is one name. -/
def isName (p : Path) : Bool := p.segments.length == 1

/-- The text of a path. -/
def render (p : Path) : String := ".".intercalate p.segments

end Path

end PeerScript
