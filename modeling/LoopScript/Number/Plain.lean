import LoopScript.Number.Shortest

/-! Numbers as they are printed: the fewest digits that are read back, never with an exponent. -/

namespace LoopScript.Number

/-- Whether the sign bit of a number is set. -/
def isNegative (value : Float) : Bool := 0x8000000000000000 ≤ value.toBits.toNat

def magnitude (value : Float) : Magnitude := value.toBits.toNat % 0x8000000000000000

def withSign (negative : Bool) (text : String) : String := if negative then "-" ++ text else text

/-- A decimal without an exponent, and without a point if it is whole. -/
def plainText (decimal : Decimal) : String :=
  match decimal.positional with
  | (whole, []) => String.ofList whole
  | (whole, fraction) => String.ofList (whole ++ '.' :: fraction)

/-- A number as it is printed. Both zeros are `0`; a tie between two decimals goes up. -/
def plain (value : Float) : String :=
  let bits := magnitude value
  if bits = 0 then "0"
  else if Magnitude.infinity < bits then "NaN"
  else if bits = Magnitude.infinity then withSign (isNegative value) "inf"
  else withSign (isNegative value) (plainText (shortest .up bits))

end LoopScript.Number
