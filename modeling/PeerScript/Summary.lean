import PeerScript.Encoder
import PeerScript.Store

/-!
# Short forms for logs

What a log shows of values and frames.  Short forms cannot be read back: a function is shown by the
number of its parameters, and a frame by the names that it binds.
-/

set_option autoImplicit false

namespace PeerScript

namespace Summary

/-- A character inside of a quoted text. -/
def char : Char → List Char
  | '"' => ['\\', '"']
  | '\\' => ['\\', '\\']
  | '\n' => ['\\', 'n']
  | '\t' => ['\\', 't']
  | '\r' => ['\\', 'r']
  | c => [c]

/-- A quoted text. -/
def text (s : String) : List Char := '"' :: (s.toList.flatMap char ++ ['"'])

/-- Items in brackets. -/
def list (items : List (List Char)) : List Char := '[' :: ([',', ' '].intercalate items ++ [']'])

mutual

/-- The short form of a value. -/
def value (describe : Object → String) : Value → List Char
  | .bool b => (if b then "true" else "false").toList
  | .int i => Number.integer i.toInt
  | .float x => Number.Layout.script.float x
  | .str s => text s
  | .list items => list (values describe items)
  | .closure params _ _ => ("<continuation/" ++ toString params.length ++ ">").toList
  | .native b => ("<native " ++ b.name ++ ">").toList
  | .handle kind _ _ => ("<" ++ kind.label ++ ">").toList
  | .object o => ("<" ++ describe o ++ ">").toList

/-- The short forms of values. -/
def values (describe : Object → String) : List Value → List (List Char)
  | [] => []
  | v :: rest => value describe v :: values describe rest

end

/-- A name with the texts of its fields. -/
def record (name : String) (fields : List (String × List Char)) : String :=
  let shown := fields.map fun field => field.1.toList ++ ':' :: ' ' :: field.2
  String.ofList (name.toList ++ ' ' :: '{' :: ' ' :: ([',', ' '].intercalate shown ++ [' ', '}']))

/-- A truth value. -/
def flag (b : Bool) : List Char := (if b then "true" else "false").toList

/-- The short form of a frame. -/
def scope (s : Store) (f : FrameId) : String :=
  record "Scope"
    [("names", list ((s.names f).map text)), ("chained", flag (s.parent? f).isSome)]

/-- The short form of a handle that does not keep its frame alive. -/
def weakHandle (alive : Bool) : String := record "WeakScope" [("alive", flag alive)]

end Summary

end PeerScript
