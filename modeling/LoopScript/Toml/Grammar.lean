import LoopScript.Toml.Scalar
import LoopScript.Toml.Table

/-! The TOML grammar, version 1.0: from a text to the lines of a document.

A scan takes characters from the front of a text, or fails. Values nest in arrays and inline
tables, up to a fixed depth. -/

namespace LoopScript.Toml

/-- Takes characters from the front of a text, or fails. -/
abbrev Scan := StateT (List Char) Option

/-- Arrays and inline tables nest less deep than this, and keys have fewer parts. -/
def depthLimit : Nat := 80

/-- Takes the characters for which a test holds. -/
def takeAll (test : Char → Bool) : Scan (List Char) := fun text =>
  some (text.takeWhile test, text.dropWhile test)

/-- Takes exactly these characters, and says whether they were there. -/
def accept (expected : List Char) : Scan Bool := fun text =>
  if expected.isPrefixOf text then some (true, text.drop expected.length) else some (false, text)

/-- Takes exactly these characters. -/
def require (expected : List Char) : Scan Unit := do
  if ← accept expected then return ()
  failure

def peek? : Scan (Option Char) := fun text => some (text.head?, text)

def blanks : Scan Unit := do
  let _ ← takeAll fun c => c = ' ' || c = '\t'

/-- Whether a character may stand in a comment or, delimiters apart, in a string. -/
def isPlain (c : Char) : Bool := c = '\t' || (0x20 ≤ c.toNat && c.toNat ≠ 0x7F)

/-- Takes a line end, if one is next. -/
def lineEnd : Scan Bool := do
  if ← accept ['\n'] then return true
  accept ['\r', '\n']

/-- Takes a comment, if one is next. -/
def comment : Scan Unit := do
  if ← accept ['#'] then
    let _ ← takeAll isPlain

/-- Takes the rest of a line: blanks, an optional comment, and the line end or the end of the
text. -/
def restOfLine : Scan Unit := do
  blanks
  comment
  if ← lineEnd then return ()
  if (← peek?).isSome then failure

/-- Takes blanks, comments and line ends, within a budget of lines. A comment ends with its
line. -/
def blankLines : Nat → Scan Unit
  | 0 => failure
  | fuel + 1 => do
      blanks
      if (← peek?) = some '#' then
        comment
        if ← lineEnd then blankLines fuel else failure
      else if ← lineEnd then blankLines fuel
      else return ()

/-! Strings. -/

/-- The quote of literal strings. -/
def apostrophe : Char := '\x27'

/-- The character that hexadecimal digits stand for. -/
def scalarValue? (digits : List Char) : Option Char :=
  let code := ofDigits 16 digits
  if digits.all isHexDigit && code.isValidChar then some (Char.ofNat code) else none

/-- Takes so many hexadecimal digits, as a character. -/
def hexChar (count : Nat) : Scan Char := fun text =>
  if text.length < count then none
  else (scalarValue? (text.take count)).map fun c => (c, text.drop count)

/-- Takes the letter of an escape, and what belongs to it. -/
def escaped : Scan Char
  | 'b' :: rest => some ('\x08', rest)
  | 't' :: rest => some ('\t', rest)
  | 'n' :: rest => some ('\n', rest)
  | 'f' :: rest => some ('\x0c', rest)
  | 'r' :: rest => some ('\r', rest)
  | '"' :: rest => some ('"', rest)
  | '\\' :: rest => some ('\\', rest)
  | 'u' :: rest => hexChar 4 rest
  | 'U' :: rest => hexChar 8 rest
  | _ => none

/-- The characters of a basic string up to its closing quote, within a budget. -/
def basicChars : Nat → Scan (List Char)
  | 0 => failure
  | fuel + 1 => do
      let run ← takeAll fun c => isPlain c && c ≠ '"' && c ≠ '\\'
      if ← accept ['"'] then return run
      require ['\\']
      let c ← escaped
      let rest ← basicChars fuel
      return run ++ c :: rest

/-- The characters of a literal string up to its closing quote. -/
def literalChars : Scan (List Char) := do
  let run ← takeAll fun c => isPlain c && c ≠ apostrophe
  require [apostrophe]
  return run

/-- Takes the quotes that end a string of several lines: three, and up to two more that still
belong to the string. Says how many belong to it. -/
def closing (quote : Char) : Scan (Option Nat) := fun text =>
  let run := (text.takeWhile (· = quote)).length
  if run < 3 then some (none, text)
  else
    let own := min (run - 3) 2
    some (some own, text.drop (own + 3))

/-- Takes blanks and line ends after a backslash at the end of a line, within a budget. -/
def foldedLines : Nat → Scan Unit
  | 0 => failure
  | fuel + 1 => do
      blanks
      if ← lineEnd then foldedLines fuel else return ()

/-- Whether a backslash ends its line. -/
def endsLine : Scan Bool := fun text =>
  let rest := text.dropWhile fun c => c = ' ' || c = '\t'
  some (['\n'].isPrefixOf rest || ['\r', '\n'].isPrefixOf rest, text)

/-- The characters of a basic string of several lines, within a budget. -/
def basicLines : Nat → Scan (List Char)
  | 0 => failure
  | fuel + 1 => do
      let run ← takeAll fun c => isPlain c && c ≠ '"' && c ≠ '\\'
      match ← closing '"' with
      | some own => return run ++ List.replicate own '"'
      | none =>
          if ← accept ['"'] then
            let rest ← basicLines fuel
            return run ++ '"' :: rest
          else if ← lineEnd then
            let rest ← basicLines fuel
            return run ++ '\n' :: rest
          else
            require ['\\']
            if ← endsLine then
              foldedLines fuel
              let rest ← basicLines fuel
              return run ++ rest
            else
              let c ← escaped
              let rest ← basicLines fuel
              return run ++ c :: rest

/-- The characters of a literal string of several lines, within a budget. -/
def literalLines : Nat → Scan (List Char)
  | 0 => failure
  | fuel + 1 => do
      let run ← takeAll fun c => isPlain c && c ≠ apostrophe
      match ← closing apostrophe with
      | some own => return run ++ List.replicate own apostrophe
      | none =>
          if ← accept [apostrophe] then
            let rest ← literalLines fuel
            return run ++ apostrophe :: rest
          else if ← lineEnd then
            let rest ← literalLines fuel
            return run ++ '\n' :: rest
          else failure

/-- A scan with a budget above the number of characters left. -/
def withFuel {α : Type} (scan : Nat → Scan α) : Scan α := fun text => scan (text.length + 1) text

def lineString? : Scan (Option String) := do
  if ← accept ['"'] then
    let text ← withFuel basicChars
    return some (String.ofList text)
  else if ← accept [apostrophe] then
    let text ← literalChars
    return some (String.ofList text)
  else return none

/-- Takes a string, if one is next. A line end just after an opening of three quotes is dropped. -/
def string? : Scan (Option String) := do
  if ← accept ['"', '"', '"'] then
    let _ ← lineEnd
    let text ← withFuel basicLines
    return some (String.ofList text)
  else if ← accept [apostrophe, apostrophe, apostrophe] then
    let _ ← lineEnd
    let text ← withFuel literalLines
    return some (String.ofList text)
  else lineString?

/-! Keys. -/

def isKeyChar (c : Char) : Bool := c.isAlphanum || c = '_' || c = '-'

/-- Takes one part of a key. -/
def keyPart : Scan String := do
  match ← lineString? with
  | some text => return text
  | none =>
      let run ← takeAll isKeyChar
      if run.isEmpty then failure
      return String.ofList run

/-- Takes the parts of a key, with points between them and blanks around them, within a budget. -/
def keyParts : Nat → Scan (List String)
  | 0 => failure
  | fuel + 1 => do
      blanks
      let part ← keyPart
      blanks
      if ← accept ['.'] then
        let rest ← keyParts fuel
        return part :: rest
      else return [part]

/-- Takes a key: the path to a table, and the name in it. -/
def key : Scan (List String × String) := do
  let parts ← keyParts (depthLimit - 1)
  match parts.getLast? with
  | some name => return (parts.dropLast, name)
  | none => failure

/-! Values. -/

/-- Takes a scalar without quotes. A date may be followed by a blank and a time. -/
def scalar : Scan Value := do
  let word ← takeAll isWordChar
  match ← get with
  | ' ' :: d :: _ =>
      if isDate word && d.isDigit then
        require [' ']
        let time ← takeAll isWordChar
        if isOffsetTime time then return .date else failure
      else StateT.lift (scalar? word)
  | _ => StateT.lift (scalar? word)

/-- Takes values up to the closing bracket of an array, within a budget. A comma may stand after the
last value. -/
def arrayItems (value : Scan Value) : Nat → Scan (List Value)
  | 0 => failure
  | fuel + 1 => do
      withFuel blankLines
      if ← accept [']'] then return []
      let item ← value
      withFuel blankLines
      if ← accept [','] then
        let rest ← arrayItems value fuel
        return item :: rest
      else
        require [']']
        return [item]

def pair (value : Scan Value) : Scan (List String × String × Value) := do
  let (path, name) ← key
  require ['=']
  blanks
  let item ← value
  return (path, name, item)

/-- Takes pairs up to the closing brace of an inline table, within a budget, and adds them to its
entries. -/
def inlinePairs (value : Scan Value) : Nat → Entries → Scan Entries
  | 0, _ => failure
  | fuel + 1, entries => do
      let (path, name, item) ← pair value
      let entries ← StateT.lift (assign path name item .header entries)
      blanks
      if ← accept [','] then inlinePairs value fuel entries
      else
        require ['\x7d']
        return entries

def inlineTable (value : Scan Value) : Scan Value := do
  blanks
  if ← accept ['\x7d'] then return .table []
  let entries ← withFuel fun fuel => inlinePairs value fuel []
  return .table (entriesToValues entries)

/-- Takes a value that nests at most this deep. -/
def valueWithin : (depth : Nat) → Scan Value
  | 0 => do
      match ← string? with
      | some text => return .text text
      | none => scalar
  | depth + 1 => do
      match ← string? with
      | some text => return .text text
      | none =>
          if ← accept ['['] then
            let items ← withFuel (arrayItems (valueWithin depth))
            return .array items
          else if ← accept ['\x7b'] then inlineTable (valueWithin depth)
          else scalar

def value : Scan Value := valueWithin (depthLimit - 1)

/-! Lines. -/

inductive Line where
  | pair (path : List String) (name : String) (value : Value)
  | header (path : List String) (name : String)
  | element (path : List String) (name : String)

/-- Takes blank lines and comments, within a budget; the last one may end with the text. -/
def blankLinesOrEnd : Nat → Scan Unit
  | 0 => failure
  | fuel + 1 => do
      blanks
      if (← peek?) = some '#' then
        comment
        if ← lineEnd then blankLinesOrEnd fuel
        else if (← peek?).isSome then failure
      else if ← lineEnd then blankLinesOrEnd fuel

/-- Takes the lines of a document up to its end, within a budget. -/
def linesWithin : Nat → Scan (List Line)
  | 0 => failure
  | fuel + 1 => do
      withFuel blankLinesOrEnd
      match ← peek? with
      | none => return []
      | some '[' =>
          let isElement ← accept ['[', '[']
          if !isElement then require ['[']
          let (path, name) ← key
          require (if isElement then [']', ']'] else [']'])
          restOfLine
          let rest ← linesWithin fuel
          return (if isElement then .element path name else .header path name) :: rest
      | some _ =>
          let (path, name, item) ← pair value
          restOfLine
          let rest ← linesWithin fuel
          return .pair path name item :: rest

/-- The lines of a document. A byte order mark at its front is skipped. -/
def lines? (text : String) : Option (List Line) := do
  let scan : Scan (List Line) := do
    let _ ← accept ['\ufeff']
    withFuel linesWithin
  let (lines, _) ← scan text.toList
  return lines

end LoopScript.Toml
