/-!
# Binary floating-point formats

A floating-point operand is kept as the bits of its binary interchange format. Here the bits are
taken apart into a sign, a whole significand and an exponent of two, and a positive fraction is
rounded to the bits of the nearest number. Everything is exact arithmetic on whole numbers.
-/

namespace CilMethod.Decimal

/-- A binary interchange format: the widths of its fraction and exponent fields. -/
structure BinaryFormat where
  fractionBits : Nat
  exponentBits : Nat

/-- What a bit pattern stands for; a finite number is `significand * 2 ^ exponent`. -/
inductive BinaryValue where
  | nan
  | infinite (negative : Bool)
  | finite (negative : Bool) (significand : Nat) (exponent : Int)

namespace BinaryFormat

/-- The 32-bit format. -/
def single : BinaryFormat := ⟨23, 8⟩

/-- The 64-bit format. -/
def double : BinaryFormat := ⟨52, 11⟩

/-- The exponent of two of the last place of the smallest numbers. -/
def leastExponent (f : BinaryFormat) : Int :=
  2 - (1 <<< (f.exponentBits - 1) : Nat) - f.fractionBits

/-- The bits of positive infinity, above those of every finite positive number. -/
def infinityBits (f : BinaryFormat) : Nat :=
  ((1 <<< f.exponentBits) - 1) <<< f.fractionBits

/-- The bits of the positive quiet not-a-number. -/
def nanBits (f : BinaryFormat) : Nat :=
  f.infinityBits + (1 <<< (f.fractionBits - 1))

/-- The weight of the sign bit. -/
def signBit (f : BinaryFormat) : Nat :=
  1 <<< (f.fractionBits + f.exponentBits)

def decode (f : BinaryFormat) (bits : Nat) : BinaryValue :=
  let negative := bits / f.signBit % 2 == 1
  let exponent := (bits >>> f.fractionBits) % (1 <<< f.exponentBits)
  let fraction := bits % (1 <<< f.fractionBits)
  if exponent = (1 <<< f.exponentBits) - 1 then
    if fraction = 0 then .infinite negative else .nan
  else if exponent = 0 then .finite negative fraction f.leastExponent
  else .finite negative ((1 <<< f.fractionBits) + fraction) (f.leastExponent + exponent - 1)

end BinaryFormat

/-- The whole number nearest to `num / den`; halfway between two, the even one. -/
def roundHalfEven (num den : Nat) : Nat :=
  let q := num / den
  let r := num % den
  if 2 * r < den then q
  else if den < 2 * r then q + 1
  else q + q % 2

/-- The exponent of two of the leading bit of `num / den`. -/
def leadingExponent (num den : Nat) : Int :=
  let guess : Int := (num.log2 : Int) - den.log2
  if den <<< guess.toNat ≤ num <<< (-guess).toNat then guess else guess - 1

namespace BinaryFormat

/-- The bits of the number nearest to the positive fraction `num / den`; halfway between two, the
one with an even significand, and infinity beyond the largest. A significand that rounds up to the
next power of two carries into the exponent field, as it should. -/
def nearestBits (f : BinaryFormat) (num den : Nat) : Nat :=
  let exponent := max (leadingExponent num den - f.fractionBits) f.leastExponent
  let significand := roundHalfEven (num <<< (-exponent).toNat) (den <<< exponent.toNat)
  min f.infinityBits (((exponent - f.leastExponent).toNat <<< f.fractionBits) + significand)

end BinaryFormat

end CilMethod.Decimal
