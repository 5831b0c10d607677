import LoopScript.Number.Plain

/-! JSON values and their two texts.

The compact text has no blanks. The indented text starts each member on a line of its own, two
blanks deeper than its parent, and writes an empty array or object without a line break. Members of
an object keep their order. -/

namespace LoopScript.Text

/-- A JSON value with whole numbers and binary64 numbers. -/
inductive Json where
  | null
  | nat (value : Nat)
  | float (value : Float)
  | string (value : String)
  | array (items : List Json)
  | object (members : List (String × Json))

namespace Json

def hexDigit (value : Nat) : Char := Nat.digitChar value

/-- A character inside a JSON string. Quotes, backslashes and control characters are escaped. -/
def escapeChar (c : Char) : List Char :=
  match c with
  | '"' => ['\\', '"']
  | '\\' => ['\\', '\\']
  | '\x08' => ['\\', 'b']
  | '\x0c' => ['\\', 'f']
  | '\n' => ['\\', 'n']
  | '\r' => ['\\', 'r']
  | '\t' => ['\\', 't']
  | _ =>
      if c.toNat < 0x20 then
        ['\\', 'u', '0', '0', hexDigit (c.toNat / 16), hexDigit (c.toNat % 16)]
      else [c]

def quoted (text : String) : List Char := ['"'] ++ text.toList.flatMap escapeChar ++ ['"']

/-- Whether the leading digit's power of ten is written without an exponent. -/
def isPositional (exponent : Int) : Bool := -5 ≤ exponent && exponent ≤ 15

/-- A decimal with a fraction, even if that is zero. -/
def fractional (decimal : Number.Decimal) : List Char :=
  match decimal.positional with
  | (whole, []) => whole ++ ['.', '0']
  | (whole, fraction) => whole ++ '.' :: fraction

/-- The sign of an exponent, which is always written. -/
def exponentSign (exponent : Int) : Char := if exponent < 0 then '-' else '+'

/-- A decimal as one digit, a fraction if there are more, and a signed exponent. -/
def scientific (decimal : Number.Decimal) : List Char :=
  let exponent := decimal.leadingExponent
  let power := 'e' :: exponentSign exponent :: Nat.toDigits 10 exponent.natAbs
  match decimal.digitChars with
  | first :: second :: rest => first :: '.' :: second :: rest ++ power
  | digits => digits ++ power

/-- A number by its magnitude, with the fewest digits that are read back. A tie between two
decimals goes to the even one. -/
def magnitudeText (bits : Number.Magnitude) : List Char :=
  if bits = 0 then ['0', '.', '0']
  else
    let decimal := Number.shortest .even bits
    if isPositional decimal.leadingExponent then fractional decimal else scientific decimal

/-- A binary64 number. What is not finite is null. -/
def floatText (value : Float) : List Char :=
  let bits := Number.magnitude value
  if Number.Magnitude.infinity ≤ bits then "null".toList
  else if Number.isNegative value then '-' :: magnitudeText bits
  else magnitudeText bits

mutual

/-- The text of a value without blanks, in front of another text. -/
def compactBefore : Json → List Char → List Char
  | null, after => "null".toList ++ after
  | nat value, after => Nat.toDigits 10 value ++ after
  | float value, after => floatText value ++ after
  | string value, after => quoted value ++ after
  | array items, after => '[' :: compactItems items (']' :: after)
  | object members, after => '\x7b' :: compactMembers members ('\x7d' :: after)

/-- The items of an array with commas between them, in front of another text. -/
def compactItems : List Json → List Char → List Char
  | [], after => after
  | [item], after => compactBefore item after
  | item :: rest, after => compactBefore item (',' :: compactItems rest after)

/-- The members of an object with commas between them, in front of another text. -/
def compactMembers : List (String × Json) → List Char → List Char
  | [], after => after
  | [(key, value)], after => quoted key ++ ':' :: compactBefore value after
  | (key, value) :: rest, after =>
      quoted key ++ ':' :: compactBefore value (',' :: compactMembers rest after)

end

def newline (depth : Nat) : List Char := '\n' :: List.replicate (2 * depth) ' '

mutual

/-- The text of a value whose own line is at a depth, with its members on deeper lines, in front of
another text. -/
def indentedBefore (depth : Nat) : Json → List Char → List Char
  | null, after => "null".toList ++ after
  | nat value, after => Nat.toDigits 10 value ++ after
  | float value, after => floatText value ++ after
  | string value, after => quoted value ++ after
  | array [], after => '[' :: ']' :: after
  | array (item :: rest), after =>
      '[' :: (newline (depth + 1) ++ indentedBefore (depth + 1) item
        (indentedItems (depth + 1) rest (newline depth ++ ']' :: after)))
  | object [], after => '\x7b' :: '\x7d' :: after
  | object ((key, value) :: rest), after =>
      '\x7b' :: (newline (depth + 1) ++ quoted key ++ ':' :: ' ' ::
        indentedBefore (depth + 1) value
          (indentedMembers (depth + 1) rest (newline depth ++ '\x7d' :: after)))

/-- The items after the first, each after a comma and on a line of its own. -/
def indentedItems (depth : Nat) : List Json → List Char → List Char
  | [], after => after
  | item :: rest, after =>
      ',' :: (newline depth ++ indentedBefore depth item (indentedItems depth rest after))

/-- The members after the first, each after a comma and on a line of its own. -/
def indentedMembers (depth : Nat) : List (String × Json) → List Char → List Char
  | [], after => after
  | (key, value) :: rest, after =>
      ',' :: (newline depth ++ quoted key ++ ':' :: ' ' ::
        indentedBefore depth value (indentedMembers depth rest after))

end

/-- The text of a value without blanks. -/
def compact (value : Json) : String := String.ofList (compactBefore value [])

/-- The text of a value over several lines. -/
def indented (value : Json) : String := String.ofList (indentedBefore 0 value [])

end Json
end LoopScript.Text
