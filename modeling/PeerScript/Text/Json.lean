import PeerScript.Number.Layout
import PeerScript.Text.Letter

/-!
# JSON documents

A reader for the grammar of JSON.  Texts keep their `\u` escapes as code units until they are asked
for as text, because half of a surrogate pair is no character but only matters where the text is
used.  Of numbers only the natural ones are told apart; a sign, a fraction or an exponent makes a
number of another kind.
-/

set_option autoImplicit false

namespace PeerScript.Text

/-- One character of a JSON text, or one code unit that an escape gives. -/
inductive JsonUnit where
  | char (c : Char)
  | code (unit : Nat)
  deriving DecidableEq, Repr

/-- A JSON document. -/
inductive Json where
  | null
  | bool (b : Bool)
  | natural (n : Nat)
  | number
  | text (units : List JsonUnit)
  | array (items : List Json)
  | object (members : List (List JsonUnit × Json))
  deriving Inhabited

namespace Json

/-- The text that units spell: a high surrogate needs a low one behind it. -/
def units? : List JsonUnit → Option (List Char)
  | [] => some []
  | .char c :: rest => (units? rest).map (c :: ·)
  | .code high :: .code low :: rest =>
      if 0xD800 ≤ high && high < 0xDC00 then
        if 0xDC00 ≤ low && low < 0xE000 then
          (units? rest).map (Char.ofNat (0x10000 + (high - 0xD800) * 0x400 + (low - 0xDC00)) :: ·)
        else none
      else if 0xDC00 ≤ high && high < 0xE000 then none
      else (units? (.code low :: rest)).map (Char.ofNat high :: ·)
  | .code unit :: rest =>
      if 0xD800 ≤ unit && unit < 0xE000 then none else (units? rest).map (Char.ofNat unit :: ·)

/-- The blanks of JSON. -/
def isBlank (c : Char) : Bool := c == ' ' || c == '\n' || c == '\t' || c == '\r'

/-- A text without the blanks it begins with. -/
def skipBlanks (cs : List Char) : List Char := cs.dropWhile isBlank

/-- A hexadecimal digit. -/
def hexDigit? (c : Char) : Option Nat :=
  if '0' ≤ c && c ≤ '9' then some (c.toNat - '0'.toNat)
  else if 'a' ≤ c && c ≤ 'f' then some (c.toNat - 'a'.toNat + 10)
  else if 'A' ≤ c && c ≤ 'F' then some (c.toNat - 'A'.toNat + 10)
  else none

/-- The character that a letter behind a backslash stands for. -/
def escaped? : Char → Option Char
  | '"' => some '"'
  | '\\' => some '\\'
  | '/' => some '/'
  | 'b' => some '\x08'
  | 'f' => some '\x0c'
  | 'n' => some '\n'
  | 'r' => some '\r'
  | 't' => some '\t'
  | _ => none

/-- The units up to the closing quotation mark.  Control characters must be escaped. -/
def readUnits : List Char → Option (List JsonUnit × List Char)
  | [] => none
  | '"' :: rest => some ([], rest)
  | '\\' :: 'u' :: a :: b :: c :: d :: rest => do
      let high := (← hexDigit? a) * 16 + (← hexDigit? b)
      let unit := high * 256 + (← hexDigit? c) * 16 + (← hexDigit? d)
      let (units, rest) ← readUnits rest
      return (.code unit :: units, rest)
  | '\\' :: letter :: rest => do
      let c ← escaped? letter
      let (units, rest) ← readUnits rest
      return (.char c :: units, rest)
  | c :: rest => do
      if c.toNat < 0x20 || c == '\\' then none
      else
        let (units, rest) ← readUnits rest
        return (.char c :: units, rest)

/-- A run of at least one digit. -/
def digits? (cs : List Char) : Option (List Char × List Char) :=
  let run := cs.takeWhile isDecimalDigit
  if run.isEmpty then none else some (run, cs.dropWhile isDecimalDigit)

/-- What may follow the integer part of a number: a fraction and an exponent.  The flag tells
whether there was any. -/
def readFraction (cs : List Char) : Option (Bool × List Char) := do
  let (fraction, cs) ← match cs with
    | '.' :: rest => do pure (true, (← digits? rest).2)
    | _ => some (false, cs)
  match cs with
  | mark :: rest =>
      if mark == 'e' || mark == 'E' then
        let rest := match rest with
          | sign :: more => if sign == '+' || sign == '-' then more else rest
          | [] => rest
        return (true, (← digits? rest).2)
      else return (fraction, cs)
  | [] => return (fraction, cs)

/-- A number without its sign.  A leading zero stands alone. -/
def readNumber (negative : Bool) (cs : List Char) : Option (Json × List Char) := do
  let (whole, cs) ← digits? cs
  if whole.length ≠ 1 ∧ whole.head? = some '0' then none
  else
    let (broken, cs) ← readFraction cs
    return (if broken || negative then .number else .natural (Number.ofDigits whole), cs)

/-- Passes over the given characters. -/
def word? (expected : List Char) (cs : List Char) : Option (List Char) :=
  if expected.isPrefixOf cs then some (cs.drop expected.length) else none

mutual

/-- Reads a document, in which at most `depth` steps nest. -/
def read (cs : List Char) : Nat → Option (Json × List Char)
  | 0 => none
  | depth + 1 =>
      match skipBlanks cs with
      | 'n' :: rest => (word? ['u', 'l', 'l'] rest).map (Json.null, ·)
      | 't' :: rest => (word? ['r', 'u', 'e'] rest).map (Json.bool true, ·)
      | 'f' :: rest => (word? ['a', 'l', 's', 'e'] rest).map (Json.bool false, ·)
      | '"' :: rest => (readUnits rest).map fun p => (.text p.1, p.2)
      | '[' :: rest =>
          match skipBlanks rest with
          | ']' :: rest => some (.array [], rest)
          | rest => (readItems rest depth).map fun p => (.array p.1, p.2)
      | '{' :: rest =>
          match skipBlanks rest with
          | '}' :: rest => some (.object [], rest)
          | rest => (readMembers rest depth).map fun p => (.object p.1, p.2)
      | '-' :: rest => readNumber true rest
      | rest => readNumber false rest

/-- Reads the items of an array behind its opening bracket or a comma. -/
def readItems (cs : List Char) : Nat → Option (List Json × List Char)
  | 0 => none
  | depth + 1 => do
      let (first, cs) ← read cs depth
      match skipBlanks cs with
      | ',' :: rest =>
          let (items, rest) ← readItems rest depth
          return (first :: items, rest)
      | ']' :: rest => return ([first], rest)
      | _ => none

/-- Reads the members of an object behind its opening brace or a comma. -/
def readMembers (cs : List Char) : Nat → Option (List (List JsonUnit × Json) × List Char)
  | 0 => none
  | depth + 1 =>
      match skipBlanks cs with
      | '"' :: rest => do
          let (key, cs) ← readUnits rest
          match skipBlanks cs with
          | ':' :: rest =>
              let (value, cs) ← read rest depth
              match skipBlanks cs with
              | ',' :: rest =>
                  let (members, rest) ← readMembers rest depth
                  return ((key, value) :: members, rest)
              | '}' :: rest => return ([(key, value)], rest)
              | _ => none
          | _ => none
      | _ => none

end

/-- The document that a whole text is. -/
def parse? (text : String) : Option Json := do
  let cs := text.toList
  let (document, rest) ← read cs (cs.length + 1)
  if (skipBlanks rest).isEmpty then some document else none

end Json

end PeerScript.Text
