/-! The lines of a text.

A line ends at a newline, and a carriage return just before that newline belongs to the line end.
A text that ends with a newline has no further empty line. -/

namespace LoopScript.Text

/-- A reversed line without the carriage return that stood before its newline. -/
def dropReturn : List Char → List Char
  | '\r' :: line => line
  | line => line

/-- The lines of a text whose last characters, in reverse, are still waiting for a line end. -/
def linesFrom : (waiting : List Char) → List Char → List (List Char)
  | [], [] => []
  | waiting, [] => [waiting.reverse]
  | waiting, c :: rest =>
      if c = '\n' then (dropReturn waiting).reverse :: linesFrom [] rest
      else linesFrom (c :: waiting) rest

/-- The lines of a text, without their line ends. -/
def lines (text : String) : List String :=
  (linesFrom [] text.toList).map String.ofList

def lineAt? (text : String) : (number : Nat) → Option String
  | 0 => none
  | index + 1 => (lines text)[index]?

end LoopScript.Text
