import LoopScript.Number.Decimal

/-! Numbers read from text.

A number is an optional sign and then infinity, not-a-number, or digits with an optional fraction
and an optional exponent. There must be a digit before or after the point, and digits after the
exponent mark. The value is the nearest binary64 number. -/

namespace LoopScript.Number

def signBit : UInt64 := 0x8000000000000000

def ofMagnitude (negative : Bool) (bits : Magnitude) : Float :=
  Float.ofBits (if negative then signBit ||| UInt64.ofNat bits else UInt64.ofNat bits)

def notANumber : Float := Float.ofBits 0x7ff8000000000000

namespace Literal

/-- A sign and what follows it. -/
def sign : List Char → Bool × List Char
  | '-' :: rest => (true, rest)
  | '+' :: rest => (false, rest)
  | rest => (false, rest)

/-- The value of a text of one or more digits. -/
def digits? (text : List Char) : Option Nat :=
  if text ≠ [] && text.all Char.isDigit then some (Nat.ofDigitChars 10 text 0) else none

/-- The power of ten that an exponent part stands for. No exponent part stands for zero. -/
def exponent? : List Char → Option Int
  | [] => some 0
  | mark :: rest =>
      if mark = 'e' || mark = 'E' then
        let (negative, rest) := sign rest
        (digits? rest).map fun value => if negative then -(value : Int) else value
      else none

/-- The digits after a point, if a point comes next, and what follows them. -/
def fraction : List Char → List Char × List Char
  | '.' :: rest => (rest.takeWhile Char.isDigit, rest.dropWhile Char.isDigit)
  | rest => ([], rest)

/-- The decimal that an unsigned text without blanks stands for. -/
def decimal? (text : List Char) : Option Decimal :=
  let whole := text.takeWhile Char.isDigit
  let (fraction, rest) := fraction (text.dropWhile Char.isDigit)
  if whole.isEmpty && fraction.isEmpty then none
  else
    (exponent? rest).map fun exponent =>
      ⟨Nat.ofDigitChars 10 (whole ++ fraction) 0, exponent - fraction.length⟩

/-- The number that a text stands for. -/
def value? (text : String) : Option Float :=
  let (negative, rest) := sign text.toList
  match String.ofList (rest.map Char.toLower) with
  | "inf" => some (ofMagnitude negative Magnitude.infinity)
  | "infinity" => some (ofMagnitude negative Magnitude.infinity)
  | "nan" => some notANumber
  | _ => (decimal? rest).map fun decimal => ofMagnitude negative decimal.toMagnitude

end Literal
end LoopScript.Number
