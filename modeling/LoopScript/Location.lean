/-! Places in a program text.

Lines and columns are counted from one, columns in characters, and only a newline ends a line.
The place `0:0` stands for a place that is not known. -/

namespace LoopScript

/-- A line and a column, with the file they are in when it is known. -/
structure Location where
  line : Nat
  column : Nat
  file : Option String := none
deriving DecidableEq

namespace Location

def start : Location := ⟨1, 1, none⟩

def unknown : Location := ⟨0, 0, none⟩

/-- Whether a place is in some line. -/
def isKnown (place : Location) : Bool := 0 < place.line

def step (place : Location) (c : Char) : Location :=
  if c = '\n' then ⟨place.line + 1, 1, place.file⟩ else ⟨place.line, place.column + 1, place.file⟩

def after (place : Location) (run : List Char) : Location := run.foldl step place

/-- The place as `line:column`, after the file name when there is one. -/
def text (place : Location) : String :=
  match place.file with
  | none => s!"{place.line}:{place.column}"
  | some file => s!"{file}:{place.line}:{place.column}"

end Location
end LoopScript
