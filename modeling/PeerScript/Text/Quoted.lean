/-!
# Quoted text

A text is written between two quotation marks, and six characters are written as a backslash and a
letter of their own.  `unescape?` reads that letter back, and `unescape?_of_escape?` says that the
two tables agree.
-/

set_option autoImplicit false

namespace PeerScript.Text.Quoted

/-- The letter that stands for a character behind a backslash, if the character needs one. -/
def escape? : Char → Option Char
  | '"' => some '"'
  | '\\' => some '\\'
  | '\n' => some 'n'
  | '\t' => some 't'
  | '\r' => some 'r'
  | '\x00' => some '0'
  | _ => none

/-- The character that a letter behind a backslash stands for. -/
def unescape? : Char → Option Char
  | '"' => some '"'
  | '\\' => some '\\'
  | 'n' => some '\n'
  | 't' => some '\t'
  | 'r' => some '\r'
  | '0' => some '\x00'
  | _ => none

/-- One character as it stands between the quotation marks. -/
def encodeChar (c : Char) : List Char :=
  match escape? c with
  | some letter => ['\\', letter]
  | none => [c]

/-- The characters between the quotation marks. -/
def encode (text : List Char) : List Char := text.flatMap encodeChar

/-- A text with its quotation marks. -/
def quote (text : List Char) : List Char := '"' :: (encode text ++ ['"'])

theorem unescape?_of_escape? {c letter : Char} (h : escape? c = some letter) :
    unescape? letter = some c := by
  unfold escape? at h
  split at h <;> cases h <;> rfl

theorem ne_of_escape?_eq_none {c : Char} (h : escape? c = none) : c ≠ '"' ∧ c ≠ '\\' := by
  constructor <;> (rintro rfl; simp [escape?] at h)

end PeerScript.Text.Quoted
