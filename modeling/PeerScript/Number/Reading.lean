import PeerScript.Number.Layout
import PeerScript.Text.Letter

/-!
# Numbers read from text

The decimal texts of numbers, with an optional sign of either kind.  A floating point number may
leave out the digits on one side of its point, and what is no finite number has a name in letters of
either case.  The texts that a `Layout` writes are among these.
-/

set_option autoImplicit false

namespace PeerScript.Number

open Text (isDecimalDigit)

/-- A text without its sign, and whether the sign is a minus. -/
def splitSign : List Char → Bool × List Char
  | '-' :: cs => (true, cs)
  | '+' :: cs => (false, cs)
  | cs => (false, cs)

/-- The integer that a text spells. -/
def integer? (cs : List Char) : Option Int :=
  let (negative, digits) := splitSign cs
  if digits.isEmpty || !digits.all isDecimalDigit then none
  else some (if negative then -(ofDigits digits : Int) else ofDigits digits)

/-- The power of ten that an exponent mark gives; without a mark it is zero. -/
def power? : List Char → Option Int
  | [] => some 0
  | mark :: cs => if mark = 'e' ∨ mark = 'E' then integer? cs else none

/-- The floating point number nearest to an unsigned decimal. -/
def decimal? (cs : List Char) : Option Float :=
  let whole := cs.takeWhile isDecimalDigit
  let rest := cs.dropWhile isDecimalDigit
  let behind := if rest.head? = some '.' then rest.tail else []
  let fraction := behind.takeWhile isDecimalDigit
  let rest := if rest.head? = some '.' then behind.dropWhile isDecimalDigit else rest
  if (whole ++ fraction).isEmpty then none
  else (power? rest).map fun power =>
    Binary64.ofDecimal (ofDigits (whole ++ fraction)) (power - fraction.length)

/-- The floating point number that a text spells. -/
def float? (cs : List Char) : Option Float :=
  let (negative, size) := splitSign cs
  let name := String.ofList (size.map Char.toLower)
  let magnitude :=
    if name = "nan" then some (0.0 / 0.0)
    else if name = "inf" ∨ name = "infinity" then some (1.0 / 0.0)
    else decimal? size
  magnitude.map fun x => if negative then -x else x

end PeerScript.Number
