import LoopScript.Diagnostic

/-! Diagnostics as text for a terminal, with or without colour.

A painted text is framed by the escape sequence that selects its style and the one that resets
it. A reset inside the text would end the style early, so the style is selected again after it. -/

namespace LoopScript.Diagnostic

inductive Style where
  | boldRed | bold | blue | yellow | green
deriving DecidableEq

/-- The parameters of the escape sequence that selects a style. -/
def Style.code : Style → String
  | boldRed => "1;31"
  | bold => "1"
  | blue => "94"
  | yellow => "93"
  | green => "92"

def escapeSequence (code : String) : String := "\x1b[" ++ code ++ "m"

/-- The characters of a text with `select` after each reset sequence. -/
def reselect (select : List Char) : List Char → List Char
  | '\x1b' :: '[' :: '0' :: 'm' :: rest =>
      '\x1b' :: '[' :: '0' :: 'm' :: (select ++ reselect select rest)
  | c :: rest => c :: reselect select rest
  | [] => []

/-- A text in a style, or plain when colour is off. -/
def paint (colour : Bool) (style : Style) (text : String) : String :=
  if colour then
    let select := escapeSequence style.code
    select ++ String.ofList (reselect select.toList text.toList) ++ escapeSequence "0"
  else text

/-- A number right-aligned in three columns. -/
def alignLineNumber (line : Nat) : String :=
  let digits := toString line
  "".pushn ' ' (3 - digits.length) ++ digits

/-- The rows that show the offending line with a caret under the offending column. -/
def sourceRows (colour : Bool) (location : Location) (line : String) : List String :=
  let bar := paint colour .blue "|"
  ["   " ++ bar,
   paint colour .blue (alignLineNumber location.line) ++ " " ++ bar ++ " " ++ line,
   "   " ++ bar ++ " " ++ "".pushn ' ' (location.column - 1) ++ paint colour .boldRed "^",
   "   " ++ bar]

/-- The rows of a report: heading, place, source line, help and suggestion. -/
def rows (colour : Bool) (report : Diagnostic) : List String :=
  let heading := paint colour .boldRed report.kind.title ++ ": " ++ paint colour .bold report.message
  let place :=
    if report.location.isKnown then [paint colour .blue ("  --> " ++ report.location.text)] else []
  let source :=
    match report.sourceLine with
    | some line => sourceRows colour report.location line
    | none => []
  let help :=
    match report.help with
    | some text => ["   " ++ paint colour .yellow "=" ++ " " ++ paint colour .yellow ("help: " ++ text)]
    | none => []
  let suggestion :=
    match report.suggestion with
    | some name =>
        ["   " ++ paint colour .green "=" ++ " " ++ paint colour .green ("Did you mean '" ++ name ++ "'?")]
    | none => []
  heading :: place ++ source ++ help ++ suggestion

/-- The report as text, each row ended by a newline. -/
def render (colour : Bool) (report : Diagnostic) : String :=
  String.join ((rows colour report).map (· ++ "\n"))

end LoopScript.Diagnostic
