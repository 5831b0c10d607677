import LoopScript.Number.Rounding

/-! Magnitudes: the 63 bits of a binary64 number below its sign.

Read as a natural number they hold the biased exponent above 52 bits of fraction, and greater
magnitudes stand for greater numbers. The finite ones stand for `significand * 2 ^ exponent`. -/

namespace LoopScript.Number

/-- The bits of a binary64 number without the sign bit. -/
abbrev Magnitude := Nat

namespace Magnitude

/-- The magnitude of infinity. Greater ones are not numbers. -/
def infinity : Magnitude := 0x7ff0000000000000

def fractionBits : Nat := 52

def leastExponent : Int := -1074

/-- The integer that a power of two multiplies. Numbers below the least normal one have no hidden
leading bit. -/
def significand (bits : Magnitude) : Nat :=
  let hidden := Nat.pow 2 fractionBits
  if bits < hidden then bits else hidden + bits % hidden

/-- The power of two that the significand is multiplied by. -/
def exponent (bits : Magnitude) : Int :=
  ((bits / Nat.pow 2 fractionBits - 1 : Nat) : Int) + leastExponent

/-- The greatest `k` with `2 ^ k ≤ num / den`, for positive `num` and `den`. -/
def floorLog2 (num den : Nat) : Int :=
  let guess : Int := (num.log2 : Int) - den.log2
  if den * Nat.pow 2 guess.toNat ≤ num * Nat.pow 2 (-guess).toNat then guess else guess - 1

/-- The magnitude nearest to the quotient `num / den`; of two equally near ones the one with an
even significand. A quotient beyond the finite ones gives infinity.

At the exponent `e` where the significand has its full width, the bits are the rounded significand
plus one fraction's range for each step of `e` above the least; a significand that rounds up to the
next power of two carries into the exponent. -/
def ofQuotient (num den : Nat) : Magnitude :=
  if num = 0 then 0
  else
    let e := max (floorLog2 num den - fractionBits) leastExponent
    let significand := roundHalfEven (num * Nat.pow 2 (-e).toNat) (den * Nat.pow 2 e.toNat)
    min infinity ((e - leastExponent).toNat * Nat.pow 2 fractionBits + significand)

end Magnitude
end LoopScript.Number
