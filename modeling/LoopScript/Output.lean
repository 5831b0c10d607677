/-! The output that a program prints to.

It takes one line at a time. A device that is full takes none, and says why. -/

namespace LoopScript

/-- The lines printed so far, last one first, and the reason why no further line can be printed, if
there is one. -/
structure Output where
  printed : List String := []
  blocked : Option String := none
deriving DecidableEq

namespace Output

def writeLine (output : Output) (line : String) : Except String Output :=
  match output.blocked with
  | some reason => .error reason
  | none => .ok { output with printed := line :: output.printed }

/-- An output that is not blocked takes a line. -/
theorem writeLine_of_open {output : Output} (h : output.blocked = none) (line : String) :
    output.writeLine line = .ok { output with printed := line :: output.printed } := by
  simp only [writeLine, h]

/-- The lines printed so far, in order. -/
def lines (output : Output) : List String := output.printed.reverse

/-- An output that takes a line has it as its last one. -/
theorem lines_writeLine {output after : Output} {line : String}
    (h : output.writeLine line = .ok after) : after.lines = output.lines ++ [line] := by
  unfold writeLine at h
  split at h
  · cases h
  · obtain rfl := Except.ok.inj h
    simp [lines]

/-- The text printed so far, each line with its end. -/
def text (output : Output) : String := String.join (output.lines.map (· ++ "\n"))

/-- The text printed after the first so many lines. -/
def textAfter (count : Nat) (output : Output) : String :=
  String.join ((output.lines.drop count).map (· ++ "\n"))

end Output
end LoopScript
