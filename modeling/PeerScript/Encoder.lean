import PeerScript.Registry
import PeerScript.Text.Quoted

/-!
# Values and trees as script text

Everything that a stack can hold has a written form in the compact language, so that a reply can be
read back as a script.  What has no form of its own is written as a quoted description.
-/

set_option autoImplicit false

namespace PeerScript

/-- What the written form depends on: the registered types, and what objects say of themselves. -/
structure Encoder where
  registry : Registry
  describe : Object → String

namespace Encoder

/-- The least integer, which no numeral spells: its magnitude is out of range. -/
def leastInteger : List Char := "-(-9223372036854775807, 1)".toList

/-- An integer as a term. -/
def integer (i : Int64) : List Char :=
  if i = Int64.minValue then leastInteger else Number.integer i.toInt

/-- A floating point number as a term.  Infinities and what is no number have no numeral. -/
def float (x : Float) : List Char :=
  if x.isFinite then Number.Layout.script.float x
  else Text.Quoted.quote (Number.Layout.plain.float x)

/-- A head with its arguments in parentheses. -/
def applied (head : List Char) (args : List (List Char)) : List Char :=
  head ++ '(' :: ([',', ' '].intercalate args ++ [')'])

/-- Terms in brackets. -/
def bracketed (items : List (List Char)) : List Char := '[' :: ([' '].intercalate items ++ [']'])

/-- The parameters of a function, if it has any, between bars. -/
def parameters (params : List String) : List Char :=
  if params.isEmpty then []
  else '|' :: ([' '].intercalate (params.map String.toList) ++ ['|', ' '])

mutual

/-- The written form of a value. -/
def value (e : Encoder) : Value → List Char
  | .bool b => (if b then "true" else "false").toList
  | .int i => integer i
  | .float x => float x
  | .str s => Text.Quoted.quote s.toList
  | .list items => bracketed (e.values items)
  | .closure params body _ => '{' :: (parameters params ++ (e.tree body ++ ['}']))
  | .native b => Text.Quoted.quote ("<native " ++ b.name ++ ">").toList
  | .handle kind _ fields =>
      match e.registry.ofKind? kind with
      | some type => applied type.name.toList (e.values fields)
      | none => Text.Quoted.quote ("<" ++ kind.label ++ ">").toList
  | .object o => Text.Quoted.quote (e.describe o).toList

/-- The written forms of values. -/
def values (e : Encoder) : List Value → List (List Char)
  | [] => []
  | v :: rest => e.value v :: e.values rest

/-- The written form of a tree. -/
def tree (e : Encoder) : Tree → List Char
  | .literal v => e.value v
  | .reference path => path.render.toList
  | .call .sequence args => [' '].intercalate (e.trees args)
  | .call (.bind name) args => name.toList ++ [' ', '=', ' '] ++ [' '].intercalate (e.trees args)
  | .call (.op operator) args => applied operator.symbol.toList (e.trees args)
  | .call (.invoke path) args => applied path.render.toList (e.trees args)
  | .call (.construct typeName) args => applied typeName.toList (e.trees args)
  | .call .list args => bracketed (e.trees args)

/-- The written forms of trees. -/
def trees (e : Encoder) : List Tree → List (List Char)
  | [] => []
  | t :: rest => e.tree t :: e.trees rest

end

theorem values_eq_map (e : Encoder) (vs : List Value) : e.values vs = vs.map e.value := by
  induction vs with
  | nil => rfl
  | cons v vs ih => rw [values, ih, List.map_cons]

theorem trees_eq_map (e : Encoder) (ts : List Tree) : e.trees ts = ts.map e.tree := by
  induction ts with
  | nil => rfl
  | cons t ts ih => rw [trees, ih, List.map_cons]

/-- The text of a value. -/
def encode (e : Encoder) (v : Value) : String := String.ofList (e.value v)

/-- The text of a tree, which can be sent as a script. -/
def render (e : Encoder) (t : Tree) : String := String.ofList (e.tree t)

/-- A script that rebuilds a stack, whose bottom comes first. -/
def script (e : Encoder) (stack : List Value) : String :=
  String.ofList ([' '].intercalate (e.values stack))

/-- An encoder for which an object is described by its type name. -/
def plain (registry : Registry) : Encoder := ⟨registry, Object.typeName⟩

end Encoder

end PeerScript
