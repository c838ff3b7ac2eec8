/-!
# Binary floating point in 64 bits

A bit pattern is decoded into sign, mantissa and exponent, and a quotient of natural numbers is
rounded to the nearest bit pattern, a tie going to the even one.  All of it is exact arithmetic on
natural numbers.
-/

set_option autoImplicit false

namespace PeerScript.Number.Binary64

/-- What a bit pattern stands for: a finite number is `mantissa * 2 ^ exponent` with its sign. -/
inductive Decoded where
  | nan
  | infinite (negative : Bool)
  | finite (negative : Bool) (mantissa : Nat) (exponent : Int)
  deriving DecidableEq, Repr, Inhabited

/-- The least exponent of a finite number. -/
def leastExponent : Int := -1074

/-- One more than the largest stored fraction. -/
def hiddenBit : Nat := Nat.pow 2 52

/-- The bit that is set in a negative number. -/
def signBit : Nat := Nat.pow 2 63

/-- The bits of positive infinity. -/
def infinityBits : Nat := 0x7FF * hiddenBit

/-- Reads a bit pattern. -/
def decode (bits : UInt64) : Decoded :=
  let negative := signBit ≤ bits.toNat
  let magnitude := bits.toNat % signBit
  let biased := magnitude / hiddenBit
  let fraction := magnitude % hiddenBit
  if biased = 0x7FF then
    if fraction = 0 then .infinite negative else .nan
  else if biased = 0 then .finite negative fraction leastExponent
  else .finite negative (fraction + hiddenBit) (leastExponent + (biased - 1))

/-- A quotient rounded to the nearest natural number, a tie to the even one. -/
def roundQuotient (num den : Nat) : Nat :=
  let quotient := num / den
  let rest := 2 * (num % den)
  if rest < den then quotient
  else if den < rest then quotient + 1
  else if quotient % 2 = 0 then quotient else quotient + 1

/-- Whether `2 ^ e ≤ num / den`. -/
def powLe (e : Int) (num den : Nat) : Bool :=
  den * Nat.pow 2 e.toNat ≤ num * Nat.pow 2 (-e).toNat

/-- The greatest `e` with `2 ^ e ≤ num / den`, for positive `num` and `den`. -/
def exponentOf (num den : Nat) : Int :=
  let guess : Int := (num.log2 : Int) - den.log2
  if powLe guess num den then guess else guess - 1

/-- The bits, without a sign, of the number nearest to `num / den`. -/
def round (num den : Nat) : Nat :=
  if num = 0 then 0
  else
    let unit := max (exponentOf num den - 52) leastExponent
    let mantissa := roundQuotient (num * Nat.pow 2 (-unit).toNat) (den * Nat.pow 2 unit.toNat)
    min ((unit - leastExponent).toNat * hiddenBit + mantissa) infinityBits

/-- The number with the given sign and magnitude. -/
def assemble (negative : Bool) (magnitude : Nat) : Float :=
  Float.ofBits (UInt64.ofNat (magnitude + if negative then signBit else 0))

/-- The number nearest to `mantissa * 2 ^ exponent`. -/
def scale (negative : Bool) (mantissa : Nat) (exponent : Int) : Float :=
  assemble negative (round (mantissa * Nat.pow 2 exponent.toNat) (Nat.pow 2 (-exponent).toNat))

/-- The number of decimal digits of a natural number. -/
def digitCount (n : Nat) : Nat := (Nat.toDigits 10 n).length

/-- The number nearest to `significand * 10 ^ exponent`.  Beyond the two bounds the answer is
infinity or zero whatever the digits are. -/
def ofDecimal (significand : Nat) (exponent : Int) : Float :=
  if significand = 0 then assemble false 0
  else if 310 < exponent + digitCount significand then assemble false infinityBits
  else if exponent + digitCount significand < -326 then assemble false 0
  else assemble false
    (round (significand * Nat.pow 10 exponent.toNat) (Nat.pow 10 (-exponent).toNat))

/-- The remainder of a division that truncates: its sign is that of the dividend, and it is
exact. -/
def remainder (x y : Float) : Float :=
  match decode x.toBits, decode y.toBits with
  | .finite negative m e, .finite _ n f =>
      if n = 0 then 0.0 / 0.0
      else
        let unit := min e f
        scale negative
          ((m * Nat.pow 2 (e - unit).toNat) % (n * Nat.pow 2 (f - unit).toNat)) unit
  | .finite .., .infinite _ => x
  | _, _ => 0.0 / 0.0

end PeerScript.Number.Binary64
