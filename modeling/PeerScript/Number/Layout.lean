import PeerScript.Number.Shortest

/-!
# Numbers as text

Two ways of writing a floating point number share the shortest digits: the one of script text, which
keeps a fraction part and turns to exponents for very large and very small numbers, and the plain
one of messages, which is positional throughout.
-/

set_option autoImplicit false

namespace PeerScript.Number

/-- How decimal digits are laid out. -/
structure Layout where
  /-- the exponents of ten, in scientific notation, that are written without an exponent -/
  positional : Int → Bool
  /-- what follows a number that has no fraction digits -/
  whole : List Char

namespace Layout

/-- Script text is positional from `1e-4` up to but not including `1e16`, and shows that a number is
no integer. -/
def script : Layout where
  positional e := -4 ≤ e && e < 16
  whole := ['.', '0']

/-- Messages show plain digits. -/
def plain : Layout where
  positional _ := true
  whole := []

/-- Digits with the decimal point after the first `point` of them, filled up by zeros. -/
def placePoint (layout : Layout) (digits : List Char) (point : Int) : List Char :=
  if point ≤ 0 then '0' :: '.' :: (List.replicate (-point).toNat '0' ++ digits)
  else if digits.length ≤ point.toNat then
    digits ++ List.replicate (point.toNat - digits.length) '0' ++ layout.whole
  else digits.take point.toNat ++ '.' :: digits.drop point.toNat

/-- Digits with an exponent of ten. -/
def withExponent (digits : List Char) (e : Int) : List Char :=
  match digits with
  | [] => []
  | first :: rest =>
      first :: (if rest.isEmpty then [] else '.' :: rest) ++ 'e' :: (toString e).toList

/-- A positive decimal. -/
def decimal (layout : Layout) (d : Decimal) : List Char :=
  let digits := Nat.toDigits 10 d.digits
  let e := d.exponent + digits.length - 1
  if layout.positional e then layout.placePoint digits (e + 1) else withExponent digits e

/-- The text of a floating point number. -/
def float (layout : Layout) (x : Float) : List Char :=
  match Binary64.decode x.toBits with
  | .nan => "NaN".toList
  | .infinite negative => (if negative then "-inf" else "inf").toList
  | .finite negative mantissa exponent =>
      (if negative then ['-'] else []) ++
        if mantissa = 0 then '0' :: layout.whole
        else layout.decimal (Binary64.shortest mantissa exponent)

end Layout

/-- The decimal text of an integer. -/
def integer (n : Int) : List Char :=
  if n < 0 then '-' :: Nat.toDigits 10 n.natAbs else Nat.toDigits 10 n.natAbs

/-- The natural number that decimal digits spell. -/
def ofDigits (digits : List Char) : Nat :=
  digits.foldl (fun n c => 10 * n + (c.toNat - '0'.toNat)) 0

end PeerScript.Number
