/-!
# Places in a text

A line feed ends its line and every other character takes one column.  Lines and columns count from
one.
-/

set_option autoImplicit false

namespace PeerScript.Text

/-- A line and a column, both counted from one. -/
structure Position where
  line : Nat
  column : Nat
  deriving DecidableEq, Repr, Inhabited

namespace Position

/-- The place of the first character of a text. -/
def start : Position := ⟨1, 1⟩

/-- The place after one more character. -/
def after (p : Position) (c : Char) : Position :=
  if c = '\n' then ⟨p.line + 1, 1⟩ else ⟨p.line, p.column + 1⟩

/-- The place after a run of characters. -/
def advance (p : Position) (cs : List Char) : Position := cs.foldl after p

/-- One column to the left, but never left of column zero. -/
def before (p : Position) : Position := ⟨p.line, p.column - 1⟩

@[simp] theorem advance_nil (p : Position) : p.advance [] = p := rfl

@[simp] theorem advance_cons (p : Position) (c : Char) (cs : List Char) :
    p.advance (c :: cs) = (p.after c).advance cs := rfl

theorem advance_append (p : Position) (xs ys : List Char) :
    p.advance (xs ++ ys) = (p.advance xs).advance ys := List.foldl_append

end Position

end PeerScript.Text
