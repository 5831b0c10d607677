import LoopScript.Number.Literal
import LoopScript.Toml.Value

/-! TOML scalars without quotes: booleans, integers, floats, dates and times.

Such a scalar is a word of letters, digits, signs, points and colons; a date and a time may also
have a blank between them. A word is read as a whole, so no scalar is a part of a longer word. -/

namespace LoopScript.Toml

def isWordChar (c : Char) : Bool :=
  c.isAlphanum || c = '_' || c = '+' || c = '-' || c = '.' || c = ':'

/-- The pieces of a text between occurrences of a character. -/
def pieces (mark : Char) : List Char → List (List Char)
  | [] => [[]]
  | c :: rest =>
      match pieces mark rest with
      | [] => [[c]]
      | piece :: others => if c = mark then [] :: piece :: others else (c :: piece) :: others

/-- Digits with single underscores between them, without the underscores. -/
def grouped? (isDigit : Char → Bool) (text : List Char) : Option (List Char) :=
  let groups := pieces '_' text
  if groups.all fun group => !group.isEmpty && group.all isDigit then some groups.flatten else none

/-- The value of a hexadecimal digit; other characters count as zero. -/
def digitValue (c : Char) : Nat :=
  if c.isDigit then c.toNat - '0'.toNat
  else if 'a' ≤ c ∧ c ≤ 'f' then c.toNat - 'a'.toNat + 10
  else if 'A' ≤ c ∧ c ≤ 'F' then c.toNat - 'A'.toNat + 10
  else 0

def isHexDigit (c : Char) : Bool :=
  c.isDigit || ('a' ≤ c && c ≤ 'f') || ('A' ≤ c && c ≤ 'F')

/-- The number with the given digits in a base. -/
def ofDigits (base : Nat) (digits : List Char) : Nat :=
  digits.foldl (fun value digit => base * value + digitValue digit) 0

/-- A natural number in a base other than ten. -/
def based? (base : Nat) (isDigit : Char → Bool) (text : List Char) : Option Int :=
  (grouped? isDigit text).map fun digits => (ofDigits base digits : Int)

/-- A decimal integer without a sign. Only zero itself starts with a zero. -/
def decimal? (text : List Char) : Option Nat :=
  match grouped? Char.isDigit text with
  | some ('0' :: _ :: _) => none
  | some digits => some (ofDigits 10 digits)
  | none => none

def isInt64 (value : Int) : Bool := -0x8000000000000000 ≤ value && value < 0x8000000000000000

/-- The integer that a word stands for. Other bases take no sign. -/
def integer? (word : List Char) : Option Int :=
  let value :=
    match word with
    | '0' :: 'x' :: digits => based? 16 isHexDigit digits
    | '0' :: 'o' :: digits => based? 8 (fun c => '0' ≤ c && c ≤ '7') digits
    | '0' :: 'b' :: digits => based? 2 (fun c => c = '0' || c = '1') digits
    | '-' :: digits => (decimal? digits).map fun value => -(value : Int)
    | '+' :: digits => (decimal? digits).map fun value => (value : Int)
    | digits => (decimal? digits).map fun value => (value : Int)
  value.filter isInt64

/-- Whether a text is a float's exponent part. -/
def isExponent : List Char → Bool
  | mark :: rest =>
      (mark = 'e' || mark = 'E') &&
        (grouped? Char.isDigit (Number.Literal.sign rest).2).isSome
  | [] => false

/-- Whether a text is what follows the whole part of a float: a fraction, an exponent, or both. -/
def isFloatTail : List Char → Bool
  | '.' :: rest =>
      let isFractionChar := fun c : Char => c.isDigit || c = '_'
      let exponent := rest.dropWhile isFractionChar
      (grouped? Char.isDigit (rest.takeWhile isFractionChar)).isSome &&
        (exponent.isEmpty || isExponent exponent)
  | rest => isExponent rest

/-- Whether a decimal is beyond the finite numbers. -/
def isInfinite (text : List Char) : Bool :=
  match Number.Literal.decimal? (text.filter (· ≠ '_')) with
  | some decimal => decimal.toMagnitude = Number.Magnitude.infinity
  | none => false

/-- Whether a word is a float. A positive decimal has to be finite. -/
def isFloat (word : List Char) : Bool :=
  let (negative, rest) := Number.Literal.sign word
  if rest = ['i', 'n', 'f'] || rest = ['n', 'a', 'n'] then true
  else
    let isWholeChar := fun c : Char => c.isDigit || c = '_'
    (decimal? (rest.takeWhile isWholeChar)).isSome &&
      isFloatTail (rest.dropWhile isWholeChar) && (negative || !isInfinite rest)

/-- A number of a fixed count of digits. -/
def fixed? (count : Nat) (text : List Char) : Option Nat :=
  if text.length = count && text.all Char.isDigit then some (ofDigits 10 text) else none

def monthDays (year month : Nat) : Nat :=
  if month = 2 then
    if (year % 4 = 0 && year % 100 ≠ 0) || year % 400 = 0 then 29 else 28
  else if month = 4 || month = 6 || month = 9 || month = 11 then 30
  else 31

def isDate (text : List Char) : Bool :=
  match pieces '-' text with
  | [year, month, day] =>
      match fixed? 4 year, fixed? 2 month, fixed? 2 day with
      | some year, some month, some day =>
          1 ≤ month && month ≤ 12 && 1 ≤ day && day ≤ monthDays year month
      | _, _, _ => false
  | _ => false

/-- Whether a text is a number of two digits up to a bound. -/
def isAtMost (bound : Nat) (text : List Char) : Bool :=
  match fixed? 2 text with
  | some value => value ≤ bound
  | none => false

/-- Whether a text is the seconds of a time, with an optional fraction. -/
def isSeconds (text : List Char) : Bool :=
  match text.drop 2 with
  | [] => isAtMost 60 text
  | '.' :: fraction => isAtMost 60 (text.take 2) && !fraction.isEmpty && fraction.all Char.isDigit
  | _ => false

def isTime (text : List Char) : Bool :=
  match pieces ':' text with
  | [hour, minute, second] => isAtMost 23 hour && isAtMost 59 minute && isSeconds second
  | _ => false

/-- Whether a text is an offset from universal time. -/
def isOffset : List Char → Bool
  | ['Z'] => true
  | ['z'] => true
  | mark :: rest =>
      (mark = '+' || mark = '-') &&
        match pieces ':' rest with
        | [hour, minute] => isAtMost 23 hour && isAtMost 59 minute
        | _ => false
  | [] => false

/-- Whether a text is a time of day, with an optional offset. -/
def isOffsetTime (text : List Char) : Bool :=
  let isTimeChar := fun c : Char => c.isDigit || c = ':' || c = '.'
  let offset := text.dropWhile isTimeChar
  isTime (text.takeWhile isTimeChar) && (offset.isEmpty || isOffset offset)

/-- Whether a word is a date, a time, or a date and a time joined by a letter. -/
def isDateTime (word : List Char) : Bool :=
  match word.drop 10 with
  | [] => isDate word || isTime word
  | mark :: time =>
      isTime word || ((mark = 'T' || mark = 't') && isDate (word.take 10) && isOffsetTime time)

def scalar? (word : List Char) : Option Value :=
  match String.ofList word with
  | "true" => some (.boolean true)
  | "false" => some (.boolean false)
  | _ =>
      match integer? word with
      | some value => some (.integer value)
      | none =>
          if isFloat word then some .float
          else if isDateTime word then some .date
          else none

end LoopScript.Toml
