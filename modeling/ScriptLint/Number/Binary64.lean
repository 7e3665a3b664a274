/-!
# Binary floating-point numbers

Numbers in the 64-bit binary format: a sign bit, eleven bits of exponent and 52 bits of fraction.
A number is kept as its bits.

**Algorithm.** A positive ratio is rounded by choosing the power of two that leaves a quotient of 53
bits (fewer only at the least exponent), dividing, and rounding the quotient to the nearest integer;
a tie goes to the even one.  The bits of the exponent and of the quotient then add up, also where
the rounding carries into the next exponent.
-/

namespace ScriptLint

/-- A number in the 64-bit binary format. -/
structure Binary64 where
  bits : UInt64
deriving DecidableEq, Repr

namespace Binary64

def signBit : Nat :=
  0x8000000000000000

/-- The least bit of the exponent, just above the fraction. -/
def exponentBit : Nat :=
  0x10000000000000

/-- The least bits of the infinities and of what is not a number. -/
def infinityBits : Nat :=
  0x7FF * exponentBit

/-- The number with a sign and the bits of its magnitude. -/
def ofMagnitude (negative : Bool) (magnitude : Nat) : Binary64 :=
  ⟨(magnitude + if negative then signBit else 0).toUInt64⟩

def zero (negative : Bool) : Binary64 :=
  ofMagnitude negative 0

def infinity (negative : Bool) : Binary64 :=
  ofMagnitude negative infinityBits

def notANumber : Binary64 :=
  ofMagnitude false (infinityBits + exponentBit / 2)

def magnitude (x : Binary64) : Nat :=
  x.bits.toNat % signBit

/-- The bits stand for no number. -/
def isNaN (x : Binary64) : Bool :=
  infinityBits < x.magnitude

/-- The quotient rounded to the nearest integer; a tie goes to the even one. -/
def roundDiv (num den : Nat) : Nat :=
  let quotient := num / den
  let rest := num % den
  if den < 2 * rest || (2 * rest == den && quotient % 2 == 1) then quotient + 1 else quotient

/-- Numerator and denominator of a ratio divided by a power of two. -/
def scale (num den : Nat) (exponent : Int) : Nat × Nat :=
  if 0 ≤ exponent then
    (num, den * Nat.pow 2 exponent.toNat)
  else
    (num * Nat.pow 2 (-exponent).toNat, den)

/-- The exponent of the last bit of a positive ratio: the quotient that it leaves has 53 bits, or
the exponent is the least one. -/
def lastBitExponent (num den : Nat) : Int :=
  let guess : Int := (num.log2 : Int) - (den.log2 : Int) - 52
  let scaled := scale num den guess
  max (-1074) (if scaled.1 / scaled.2 < exponentBit then guess - 1 else guess)

/-- The bits of the number nearest to a positive ratio. -/
def roundRatio (num den : Nat) : Nat :=
  let exponent := lastBitExponent num den
  let scaled := scale num den exponent
  min infinityBits ((exponent + 1074).toNat * exponentBit + roundDiv scaled.1 scaled.2)

end Binary64
end ScriptLint
