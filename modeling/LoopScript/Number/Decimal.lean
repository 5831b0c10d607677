import LoopScript.Number.Magnitude

/-! Decimals: a natural number of units, times a power of ten. -/

namespace LoopScript.Number

/-- The number `digits * 10 ^ exponent`. -/
structure Decimal where
  digits : Nat
  exponent : Int
deriving DecidableEq

namespace Decimal

/-- The decimal digits of the units, most significant first. -/
def digitChars (decimal : Decimal) : List Char := Nat.toDigits 10 decimal.digits

/-- The power of ten of the leading digit. -/
def leadingExponent (decimal : Decimal) : Int :=
  decimal.digitChars.length - 1 + decimal.exponent

/-- Moves zeros at the end of the digits into the exponent. -/
def trimZeros (digits : Nat) (exponent : Int) : Decimal :=
  if h : digits ≠ 0 ∧ digits % 10 = 0 then trimZeros (digits / 10) (exponent + 1)
  else ⟨digits, exponent⟩
termination_by digits
decreasing_by omega

/-- Decimals from this power of ten on are beyond all finite magnitudes. -/
def overflowExponent : Int := 310

/-- Decimals whose leading digit is below this power of ten are nearest to zero. -/
def underflowExponent : Int := -330

/-- The nearest magnitude. Decimals far outside the finite range are told by their leading digit
alone, so that no huge power of ten is formed. -/
def toMagnitude (decimal : Decimal) : Magnitude :=
  if decimal.digits = 0 then 0
  else if overflowExponent ≤ decimal.leadingExponent then Magnitude.infinity
  else if decimal.leadingExponent < underflowExponent then 0
  else
    Magnitude.ofQuotient (decimal.digits * Nat.pow 10 decimal.exponent.toNat)
      (Nat.pow 10 (-decimal.exponent).toNat)

/-- The whole part and the fraction of a decimal, without an exponent. The whole part has at least
one digit; the fraction may be empty. -/
def positional (decimal : Decimal) : List Char × List Char :=
  let digits := decimal.digitChars
  if 0 ≤ decimal.exponent then
    (digits ++ List.replicate decimal.exponent.toNat '0', [])
  else
    let places := (-decimal.exponent).toNat
    if places < digits.length then
      (digits.take (digits.length - places), digits.drop (digits.length - places))
    else (['0'], List.replicate (places - digits.length) '0' ++ digits)

end Decimal
end LoopScript.Number
