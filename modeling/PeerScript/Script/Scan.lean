import PeerScript.Fault
import PeerScript.Text.Letter
import PeerScript.Text.Quoted

/-!
# From text to tokens

A text is cut into lexemes from left to right, and each lexeme is as long as its kind allows.
Blanks other than line feeds, and comments up to the end of their line, are passed over.
`scan_shorter` says that every step uses up at least one character, so that the whole text is read.
-/

set_option autoImplicit false

namespace PeerScript.Script

open Text (Position isDecimalDigit isBlank startsName continuesName isAlphanumeric)

/-- What is left of a text, and the place where it begins. -/
structure Remainder where
  chars : List Char
  place : Position
  deriving Repr, Inhabited

namespace Remainder

/-- Passes over the characters `used`, which leaves `rest`. -/
def skip (r : Remainder) (used rest : List Char) : Remainder := ⟨rest, r.place.advance used⟩

end Remainder

/-! ## Numerals -/

/-- The parts of a numeral: digits, digits behind the point, and the exponent with its sign. -/
structure Numeral where
  whole : List Char
  fraction : List Char
  exponent : List Char
  deriving Repr, Inhabited

/-- A point and the digits behind it.  A point without a digit is no part of a numeral. -/
def fractionPart : List Char → List Char × List Char
  | '.' :: d :: rest =>
      if isDecimalDigit d then
        ('.' :: (d :: rest).takeWhile isDecimalDigit, (d :: rest).dropWhile isDecimalDigit)
      else ([], '.' :: d :: rest)
  | cs => ([], cs)

/-- The mark of an exponent with its sign and digits.  A mark without a digit is no part of a
numeral. -/
def exponentPart : List Char → List Char × List Char
  | mark :: sign :: d :: rest =>
      if mark = 'e' ∨ mark = 'E' then
        if isDecimalDigit sign then
          (mark :: (sign :: d :: rest).takeWhile isDecimalDigit,
            (sign :: d :: rest).dropWhile isDecimalDigit)
        else if (sign = '+' ∨ sign = '-') ∧ isDecimalDigit d then
          (mark :: sign :: (d :: rest).takeWhile isDecimalDigit,
            (d :: rest).dropWhile isDecimalDigit)
        else ([], mark :: sign :: d :: rest)
      else ([], mark :: sign :: d :: rest)
  | [mark, d] =>
      if (mark = 'e' ∨ mark = 'E') ∧ isDecimalDigit d then ([mark, d], []) else ([], [mark, d])
  | cs => ([], cs)

namespace Numeral

/-- The numeral at the start of a text, and the text behind it. -/
def read (cs : List Char) : Numeral × List Char :=
  let whole := cs.takeWhile isDecimalDigit
  let (fraction, rest) := fractionPart (cs.dropWhile isDecimalDigit)
  let (exponent, rest) := exponentPart rest
  (⟨whole, fraction, exponent⟩, rest)

/-- All characters of a numeral. -/
def chars (n : Numeral) : List Char := n.whole ++ n.fraction ++ n.exponent

/-- A numeral with a fraction or an exponent is no integer. -/
def isFloat (n : Numeral) : Bool := !n.fraction.isEmpty || !n.exponent.isEmpty

/-- The value of the exponent. -/
def power (n : Numeral) : Int :=
  match n.exponent with
  | _ :: '-' :: digits => -(Number.ofDigits digits : Int)
  | _ :: '+' :: digits => Number.ofDigits digits
  | _ :: digits => Number.ofDigits digits
  | [] => 0

/-- The nearest floating point number. -/
def toFloat (n : Numeral) : Float :=
  let fraction := n.fraction.drop 1
  Number.Binary64.ofDecimal (Number.ofDigits (n.whole ++ fraction)) (n.power - fraction.length)

/-- The token of a numeral, which must be in range if it is an integer. -/
def toToken (n : Numeral) : Except Complaint Token :=
  if n.isFloat then .ok (.float n.toFloat)
  else
    let value := Number.ofDigits n.whole
    if value < 9223372036854775808 then .ok (.int (Int64.ofNat value))
    else .error (.integerOutOfRange (String.ofList n.whole))

end Numeral

/-- Reads a numeral.  A letter, a number or an underscore must not follow it. -/
def scanNumber (r : Remainder) : Except Fault (Token × Remainder) :=
  let (numeral, rest) := Numeral.read r.chars
  if rest.head?.any continuesName then .error (.malformed r.place .malformedNumber)
  else
    match numeral.toToken with
    | .ok token => .ok (token, r.skip numeral.chars rest)
    | .error complaint => .error (.malformed r.place complaint)

/-! ## Strings -/

/-- The characters up to the closing quotation mark, for a string opened at `opening`. -/
def stringBody (opening : Position) : List Char → Position → Except Fault (List Char × Remainder)
  | [], _ => .error (.malformed opening .unterminatedString)
  | '"' :: rest, p => .ok ([], ⟨rest, p.after '"'⟩)
  | ['\\'], _ => .error (.malformed opening .unterminatedString)
  | '\\' :: letter :: rest, p =>
      let p := (p.after '\\').after letter
      match Text.Quoted.unescape? letter with
      | none => .error (.malformed p.before (.unknownEscape letter))
      | some c =>
          match stringBody opening rest p with
          | .ok (text, r) => .ok (c :: text, r)
          | .error fault => .error fault
  | c :: rest, p =>
      match stringBody opening rest (p.after c) with
      | .ok (text, r) => .ok (c :: text, r)
      | .error fault => .error fault

/-! ## Symbols -/

/-- The symbol at the start of a text and the number of its characters. -/
def symbol? : List Char → Option (Symbol × Nat)
  | '=' :: '=' :: _ => some (.eq, 2)
  | '!' :: '=' :: _ => some (.ne, 2)
  | '<' :: '=' :: _ => some (.le, 2)
  | '>' :: '=' :: _ => some (.ge, 2)
  | '&' :: '&' :: _ => some (.and, 2)
  | '|' :: '|' :: _ => some (.or, 2)
  | c :: _ =>
      match c with
      | '(' => some (.lParen, 1) | ')' => some (.rParen, 1)
      | '[' => some (.lBracket, 1) | ']' => some (.rBracket, 1)
      | '{' => some (.lBrace, 1) | '}' => some (.rBrace, 1)
      | ',' => some (.comma, 1) | ';' => some (.semi, 1) | '.' => some (.dot, 1)
      | '+' => some (.plus, 1) | '-' => some (.minus, 1) | '*' => some (.star, 1)
      | '/' => some (.slash, 1) | '%' => some (.percent, 1)
      | '=' => some (.assign, 1) | '!' => some (.bang, 1)
      | '<' => some (.lt, 1) | '>' => some (.gt, 1) | '|' => some (.pipe, 1)
      | _ => none
  | [] => none

theorem symbol?_pos {cs : List Char} {s : Symbol} {n : Nat} (h : symbol? cs = some (s, n)) :
    0 < n := by
  unfold symbol? at h
  repeat' split at h
  all_goals first | (cases h; decide) | cases h

/-! ## One lexeme -/

/-- Reads one lexeme from a text that begins with `c`: a token, or something that is passed over. -/
def scan (c : Char) (rest : List Char) (place : Position) :
    Except Fault (Option Token × Remainder) :=
  let r : Remainder := ⟨c :: rest, place⟩
  if c = '\n' then .ok (some .newline, ⟨rest, place.after c⟩)
  else if isBlank c then .ok (none, ⟨rest, place.after c⟩)
  else if c = '/' ∧ rest.head? = some '/' then
    .ok (none, r.skip (r.chars.takeWhile (· ≠ '\n')) (r.chars.dropWhile (· ≠ '\n')))
  else if isDecimalDigit c then
    match scanNumber r with
    | .ok (token, after) => .ok (some token, after)
    | .error fault => .error fault
  else if c = '"' then
    match stringBody place rest (place.after c) with
    | .ok (text, after) => .ok (some (.str (String.ofList text)), after)
    | .error fault => .error fault
  else if startsName c then
    .ok (some (.name (String.ofList (r.chars.takeWhile continuesName))),
      r.skip (r.chars.takeWhile continuesName) (r.chars.dropWhile continuesName))
  else
    match symbol? r.chars with
    | some (symbol, count) =>
        .ok (some (.symbol symbol), r.skip (r.chars.take count) (r.chars.drop count))
    | none => .error (.malformed place (.unexpectedCharacter c))

theorem length_dropWhile_le {α : Type} (p : α → Bool) (l : List α) :
    (l.dropWhile p).length ≤ l.length :=
  (List.dropWhile_sublist p).length_le

theorem fractionPart_length (cs : List Char) : (fractionPart cs).2.length ≤ cs.length := by
  unfold fractionPart
  split
  · split
    · exact Nat.le_succ_of_le (length_dropWhile_le _ _)
    · exact Nat.le_refl _
  · exact Nat.le_refl _

theorem exponentPart_length (cs : List Char) : (exponentPart cs).2.length ≤ cs.length := by
  unfold exponentPart
  repeat' split
  all_goals
    first
    | exact Nat.le_refl _
    | exact Nat.le_succ_of_le (length_dropWhile_le _ _)
    | exact Nat.le_succ_of_le (Nat.le_succ_of_le (length_dropWhile_le _ _))
    | exact Nat.zero_le _

theorem stringBody_length {opening : Position} {cs : List Char} {p : Position} {text : List Char}
    {r : Remainder} (h : stringBody opening cs p = .ok (text, r)) : r.chars.length < cs.length := by
  fun_induction stringBody opening cs p generalizing text r <;> simp_all <;> grind

/-- Reading a lexeme uses up at least one character. -/
theorem scan_shorter {c : Char} {rest : List Char} {place : Position} {token : Option Token}
    {r : Remainder} (h : scan c rest place = .ok (token, r)) :
    r.chars.length < (c :: rest).length := by
  unfold scan at h
  simp only at h
  split at h
  · cases h; exact Nat.lt_succ_self _
  split at h
  · cases h; exact Nat.lt_succ_self _
  split at h
  · rename_i hc
    cases h
    simp only [Remainder.skip, hc.1, List.dropWhile_cons]
    exact Nat.lt_succ_of_le (length_dropWhile_le _ _)
  split at h
  · rename_i hd
    split at h
    · rename_i token' after hn
      cases h
      unfold scanNumber Numeral.read at hn
      simp only at hn
      split at hn
      · cases hn
      · split at hn
        · cases hn
          simp only [Remainder.skip, List.dropWhile_cons, hd, if_true]
          exact Nat.lt_succ_of_le (Nat.le_trans (exponentPart_length _)
            (Nat.le_trans (fractionPart_length _) (length_dropWhile_le _ _)))
        · cases hn
    · cases h
  split at h
  · split at h
    · rename_i hs
      cases h
      exact Nat.lt_succ_of_lt (stringBody_length hs)
    · cases h
  split at h
  · rename_i hn
    cases h
    simp only [Remainder.skip, List.dropWhile_cons, Text.continuesName_of_startsName hn, if_true]
    exact Nat.lt_succ_of_le (length_dropWhile_le _ _)
  · split at h
    · rename_i hs
      cases h
      have := symbol?_pos hs
      simp only [Remainder.skip, List.length_drop, List.length_cons]
      omega
    · cases h

/-! ## The whole text -/

/-- The tokens of a text that begins at `place`, with `finish` behind them. -/
def tokens (cs : List Char) (place : Position) : Except Fault (List Placed) :=
  match cs with
  | [] => .ok [⟨.finish, place⟩]
  | c :: rest =>
      match h : scan c rest place with
      | .error fault => .error fault
      | .ok (token, r) =>
          have _shorter := scan_shorter h
          match tokens r.chars r.place with
          | .error fault => .error fault
          | .ok more => .ok (token.elim more (⟨·, place⟩ :: more))
termination_by cs.length
decreasing_by exact _shorter

/-- The tokens of a text. -/
def tokenize (source : String) : Except Fault (List Placed) := tokens source.toList .start

end PeerScript.Script
