import PeerScript.Number.Layout
import PeerScript.Text.Position

/-!
# Tokens of script text

Both surface languages are written with the same tokens.  Numerals carry no sign: a minus is a
symbol of its own.
-/

set_option autoImplicit false

namespace PeerScript.Script

/-- Punctuation marks and operators. -/
inductive Symbol where
  | lParen | rParen | lBracket | rBracket | lBrace | rBrace
  | comma | semi | dot | assign | pipe
  | plus | minus | star | slash | percent
  | eq | ne | lt | le | gt | ge | and | or | bang
  deriving DecidableEq, Repr, Inhabited

namespace Symbol

/-- The word that diagnostics use for a symbol. -/
def title : Symbol → String
  | lParen => "LParen" | rParen => "RParen" | lBracket => "LBracket" | rBracket => "RBracket"
  | lBrace => "LBrace" | rBrace => "RBrace" | comma => "Comma" | semi => "Semi" | dot => "Dot"
  | assign => "Assign" | pipe => "Pipe" | plus => "Plus" | minus => "Minus" | star => "Star"
  | slash => "Slash" | percent => "Percent" | eq => "Eq" | ne => "Ne" | lt => "Lt" | le => "Le"
  | gt => "Gt" | ge => "Ge" | and => "And" | or => "Or" | bang => "Bang"

/-- The characters of a symbol. -/
def spelling : Symbol → List Char
  | lParen => ['('] | rParen => [')'] | lBracket => ['['] | rBracket => [']']
  | lBrace => ['{'] | rBrace => ['}'] | comma => [','] | semi => [';'] | dot => ['.']
  | assign => ['='] | pipe => ['|'] | plus => ['+'] | minus => ['-'] | star => ['*']
  | slash => ['/'] | percent => ['%'] | eq => ['=', '='] | ne => ['!', '='] | lt => ['<']
  | le => ['<', '='] | gt => ['>'] | ge => ['>', '='] | and => ['&', '&'] | or => ['|', '|']
  | bang => ['!']

end Symbol

/-- One token.  `finish` stands behind the last token of a text. -/
inductive Token where
  | int (value : Int64)
  | float (value : Float)
  | str (text : String)
  | name (text : String)
  | symbol (mark : Symbol)
  | newline
  | finish
  deriving BEq, Repr, Inhabited

namespace Token

/-- What diagnostics call a token. -/
def describe : Token → String
  | .int value => "number " ++ String.ofList (Number.integer value.toInt)
  | .float value => "number " ++ String.ofList (Number.Layout.plain.float value)
  | .str _ => "string"
  | .name text => "'" ++ text ++ "'"
  | .symbol mark => mark.title
  | .newline => "end of line"
  | .finish => "end of input"

end Token

/-- A token and the place of its first character. -/
structure Placed where
  token : Token
  place : Text.Position
  deriving BEq, Repr, Inhabited

end PeerScript.Script
