import PeerScript.Number.Binary64

/-!
# The fewest digits that read back

For a finite number the decimal grids of one digit, two digits and so on are tried until one of them
has a point that rounds to the number.  Of the two neighbours of the number on that grid the nearer
one is taken, and the upper one when both are equally near.
-/

set_option autoImplicit false

namespace PeerScript.Number

/-- A decimal number `digits * 10 ^ exponent`. -/
structure Decimal where
  digits : Nat
  exponent : Int
  deriving DecidableEq, Repr, Inhabited

namespace Decimal

/-- The same number without zeros at the end of its digits.  `steps` bounds how many are removed. -/
def dropZeros (steps : Nat) (d : Decimal) : Decimal :=
  match steps with
  | 0 => d
  | steps + 1 =>
      if d.digits ≠ 0 ∧
        d.digits % 10 = 0 then dropZeros steps ⟨d.digits / 10, d.exponent + 1⟩ else d

end Decimal

namespace Binary64

/-- The interval of numbers that round to `mantissa * 2 ^ exponent`, in quarters of the unit of the
mantissa.  It is narrower below a power of two. -/
def roundingInterval (mantissa : Nat) (exponent : Int) : Nat × Nat :=
  let below := if mantissa = hiddenBit ∧ leastExponent < exponent then 1 else 2
  (4 * mantissa - below, 4 * mantissa + 2)

/-- The decimal exponent `k` with `10 ^ (k - 1) ≤ mantissa * 2 ^ exponent < 10 ^ k`. -/
def decimalExponent (mantissa : Nat) (exponent : Int) : Int :=
  let scaled := mantissa * Nat.pow 2 exponent.toNat * Nat.pow 10 400 / Nat.pow 2 (-exponent).toNat
  (digitCount scaled : Int) - 400

/-- The point nearest to the number on the grid of multiples of `10 ^ place`, if one of the two
neighbouring points rounds to the number. -/
def onGrid? (mantissa : Nat) (exponent place : Int) : Option Decimal :=
  let (low, high) := roundingInterval mantissa exponent
  let up := Nat.pow 2 (exponent - 2).toNat * Nat.pow 10 (-place).toNat
  let down := Nat.pow 2 (2 - exponent).toNat * Nat.pow 10 place.toNat
  let inside (c : Nat) : Bool :=
    if mantissa % 2 = 0 then low * up ≤ c * down && c * down ≤ high * up
    else low * up < c * down && c * down < high * up
  let lower := 4 * mantissa * up / down
  let upper := lower + 1
  match inside lower, inside upper with
  | true, true =>
      if 4 * mantissa * up - lower * down < upper * down - 4 * mantissa * up
        then some ⟨lower, place⟩
      else some ⟨upper, place⟩
  | true, false => some ⟨lower, place⟩
  | false, true => some ⟨upper, place⟩
  | false, false => none

/-- The shortest decimal that rounds to `mantissa * 2 ^ exponent`, for a positive mantissa. -/
def shortest (mantissa : Nat) (exponent : Int) : Decimal :=
  let k := decimalExponent mantissa exponent
  let found := (List.range 17).findSome? fun n => onGrid? mantissa exponent (k - (n : Nat) - 1)
  (found.getD ⟨0, 0⟩).dropZeros 20

end Binary64

end PeerScript.Number
