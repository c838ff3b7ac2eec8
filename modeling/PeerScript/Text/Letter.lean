import PeerScript.Text.LetterRanges

/-!
# Character classes of identifiers and layout

Which characters start an identifier, which may follow, and which are blank.  The ASCII characters
are decided by comparison, the others by the tables of the Unicode standard.
-/

set_option autoImplicit false

namespace PeerScript.Text

/-- Whether a code point lies in one of the ranges. -/
def inRanges (ranges : List (Nat × Nat)) (code : Nat) : Bool :=
  ranges.any fun (first, last) => first ≤ code && code ≤ last

/-- The Unicode property `Alphabetic`. -/
def isAlphabetic (c : Char) : Bool :=
  if c.toNat < 0x80 then c.isAlpha else inRanges alphabeticRanges c.toNat

/-- The Unicode categories of numbers: `Nd`, `Nl` and `No`. -/
def isNumeric (c : Char) : Bool :=
  if c.toNat < 0x80 then c.isDigit else inRanges numericRanges c.toNat

/-- A letter or a number of any script. -/
def isAlphanumeric (c : Char) : Bool := isAlphabetic c || isNumeric c

/-- A character that starts an identifier. -/
def startsName (c : Char) : Bool := isAlphabetic c || c == '_'

/-- A character that may stand inside an identifier. -/
def continuesName (c : Char) : Bool := isAlphanumeric c || c == '_'

/-- The Unicode property `White_Space`. -/
def isBlank (c : Char) : Bool :=
  let code := c.toNat
  (0x09 ≤ code && code ≤ 0x0D) || code == 0x20 || code == 0x85 || code == 0xA0 || code == 0x1680 ||
    (0x2000 ≤ code && code ≤ 0x200A) || code == 0x2028 || code == 0x2029 || code == 0x202F ||
    code == 0x205F || code == 0x3000

/-- A digit of the decimal notation. -/
def isDecimalDigit (c : Char) : Bool := '0' ≤ c && c ≤ '9'

theorem continuesName_of_startsName {c : Char} (h : startsName c = true) :
    continuesName c = true := by
  simp only [startsName, continuesName, isAlphanumeric, Bool.or_eq_true] at h ⊢
  exact h.elim (fun h => .inl (.inl h)) .inr

/-- Text without the blanks at its two ends. -/
def trim (text : List Char) : List Char :=
  ((text.dropWhile isBlank).reverse.dropWhile isBlank).reverse

end PeerScript.Text
