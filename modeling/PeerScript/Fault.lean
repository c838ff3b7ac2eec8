import PeerScript.Script.Token

/-!
# Faults

Everything that can go wrong while a script is parsed, run, sent or answered.  A `Complaint` is
what is wrong with a text, and a `Fault` is any cause of failure; each has one text.
-/

set_option autoImplicit false

namespace PeerScript

open Script (Token)

/-- What is wrong with the text of a script. -/
inductive Complaint where
  | malformedNumber
  | integerOutOfRange (digits : String)
  | unterminatedString
  | unknownEscape (letter : Char)
  | unexpectedCharacter (c : Char)
  | nestingTooDeep (limit : Nat)
  | undecodable (typeName reason : String)
  | unexpected (found : Token)
  | expected (what : String) (found : Token)
  | bareOperator
  | notAnOperator
  | operandCount (symbol : String) (takes got : Nat)
  | unclosed (delimiter : String)
  | endOfInput
  deriving BEq, Repr, Inhabited

namespace Complaint

/-- The wording of a complaint. -/
def message : Complaint → String
  | malformedNumber => "malformed number literal"
  | integerOutOfRange digits => "integer '" ++ digits ++ "' out of range"
  | unterminatedString => "unterminated string"
  | unknownEscape letter => "unknown escape '\\" ++ letter.toString ++ "'"
  | unexpectedCharacter c => "unexpected character '" ++ c.toString ++ "'"
  | nestingTooDeep limit => "nesting too deep (limit " ++ toString limit ++ ")"
  | undecodable typeName reason => "Cannot decode " ++ typeName ++ ": " ++ reason
  | unexpected found => "unexpected " ++ found.describe
  | expected what found => "expected " ++ what ++ ", found " ++ found.describe
  | bareOperator => "operator must be applied as op(args)"
  | notAnOperator => "not an operator"
  | operandCount symbol takes got =>
      "operator " ++ symbol ++ " takes " ++ toString takes ++ " operands, got " ++ toString got
  | unclosed delimiter => "unclosed '" ++ delimiter ++ "'"
  | endOfInput => "unexpected end of input, unclosed delimiter"

end Complaint

/-- A cause of failure. -/
inductive Fault where
  /-- text that is no script -/
  | malformed (place : Text.Position) (complaint : Complaint)
  /-- a name that is not visible where the text uses it -/
  | unknownName (place : Text.Position) (name : String)
  /-- a name that no scope binds when it is looked up -/
  | unbound (name : String)
  | unknownMember (owner member : String)
  /-- a call of something that is no function -/
  | notInvocable (name typeName : String)
  /-- an operand or an argument of the wrong type -/
  | typeError (detail : String)
  | stackUnderflow
  | arity (name : String) (expected got : Nat)
  | assertionFailed
  | divisionByZero
  | overflow
  | recursionLimit (limit : Nat)
  | unknownType (typeName : String)
  /-- fields that the decoder of a type rejects -/
  | undecodable (typeName reason : String)
  /-- an address on which no server can listen -/
  | cannotListen (detail : String)
  /-- a connection that cannot be made or that broke -/
  | transport (detail : String)
  | notConnected (detail : String)
  | protocol (detail : String)
  /-- settings that are no valid document -/
  | malformedSettings (detail : String)
  /-- settings that cannot be read -/
  | noSettings (detail : String)
  deriving BEq, Repr, Inhabited

namespace Fault

/-- Whether the fault was found in the text, before anything ran. -/
def isStatic : Fault → Bool
  | malformed .. | unknownName .. => true
  | _ => false

/-- The text of a place before a diagnostic. -/
def locate (place : Text.Position) (text : String) : String :=
  toString place.line ++ ":" ++ toString place.column ++ ": " ++ text

/-- The wording of a fault. -/
def message : Fault → String
  | malformed place complaint => locate place complaint.message
  | unknownName place name => locate place ("unknown identifier '" ++ name ++ "'")
  | unbound name => "Unbound identifier: " ++ name
  | unknownMember owner member => "Unknown member: " ++ owner ++ "." ++ member
  | notInvocable name typeName => "Not invocable: " ++ name ++ " (" ++ typeName ++ ")"
  | typeError detail => "Type error: " ++ detail
  | stackUnderflow => "Stack underflow"
  | arity name expected got =>
      name ++ " expects " ++ toString expected ++ " arguments, got " ++ toString got
  | assertionFailed => "Assertion failed"
  | divisionByZero => "Division by zero"
  | overflow => "Integer overflow"
  | recursionLimit limit => "Recursion limit of " ++ toString limit ++ " exceeded"
  | unknownType typeName => "Unknown type: " ++ typeName
  | undecodable typeName reason => "Cannot decode " ++ typeName ++ ": " ++ reason
  | cannotListen detail => "Bind error: " ++ detail
  | transport detail => "IPC error: " ++ detail
  | notConnected detail => "Not connected: " ++ detail
  | protocol detail => "Protocol error: " ++ detail
  | malformedSettings detail => "Serialization error: " ++ detail
  | noSettings detail => "Config error: " ++ detail

/-- What is shown in the place of a result. -/
def errorText (f : Fault) : String := "Error: " ++ f.message

end Fault

end PeerScript
