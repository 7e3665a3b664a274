import ScriptLint.Number.Binary64

/-!
# Decimal numbers

A decimal number is written with digits, a point that may stand at either end of them, and a power
of ten.  Signs are allowed before the number and before the power, and the words for infinity and
for no number stand in its place.

Reading gives the number of the 64-bit binary format that is nearest to what is written.
-/

namespace ScriptLint

/-- A decimal number: a sign and a coefficient times a power of ten. -/
structure Decimal where
  negative : Bool
  coefficient : Nat
  exponent : Int
deriving DecidableEq, Repr

namespace Decimal

def ofDigits (digits : List Char) : Nat :=
  digits.foldl (fun n c => 10 * n + (c.toNat - '0'.toNat)) 0

/-- Splits a sign off; true is a minus. -/
def readSign : List Char → Bool × List Char
  | '-' :: rest => (true, rest)
  | '+' :: rest => (false, rest)
  | rest => (false, rest)

/-- Reads a power of ten up to the end of the text. -/
def readExponent? : List Char → Option Int
  | [] => some 0
  | c :: rest =>
    if c = 'e' || c = 'E' then
      let (negative, digits) := readSign rest
      if digits.isEmpty || !digits.all Char.isDigit then none
      else if negative then some (-(ofDigits digits : Int))
      else some (ofDigits digits)
    else
      none

/-- Reads digits, an optional point and an optional power of ten. -/
def readUnsigned? (negative : Bool) (cs : List Char) : Option Decimal :=
  let whole := cs.takeWhile Char.isDigit
  let rest := cs.drop whole.length
  let fraction := match rest with
    | '.' :: rest => rest.takeWhile Char.isDigit
    | _ => []
  let rest := match rest with
    | '.' :: rest => rest.drop fraction.length
    | _ => rest
  if whole.isEmpty && fraction.isEmpty then none
  else
    (readExponent? rest).map fun exponent =>
      ⟨negative, ofDigits (whole ++ fraction), exponent - fraction.length⟩

/-- Numbers from this power of ten on are above all finite ones, and from its opposite down are
below all but zero. -/
def exponentLimit : Int :=
  400

def toBinary64 (d : Decimal) : Binary64 :=
  if d.coefficient = 0 then
    Binary64.zero d.negative
  else
    let size : Int := (Nat.toDigits 10 d.coefficient).length
    if exponentLimit < d.exponent + size then
      Binary64.infinity d.negative
    else if d.exponent + size < -exponentLimit then
      Binary64.zero d.negative
    else if 0 ≤ d.exponent then
      Binary64.ofMagnitude d.negative
        (Binary64.roundRatio (d.coefficient * Nat.pow 10 d.exponent.toNat) 1)
    else
      Binary64.ofMagnitude d.negative
        (Binary64.roundRatio d.coefficient (Nat.pow 10 (-d.exponent).toNat))

end Decimal

def Binary64.ofChars? (cs : List Char) : Option Binary64 :=
  let (negative, rest) := Decimal.readSign cs
  let word := String.ofList (rest.map Char.toLower)
  if word = "inf" || word = "infinity" then some (infinity negative)
  else if word = "nan" then some notANumber
  else (Decimal.readUnsigned? negative rest).map Decimal.toBinary64
end ScriptLint
