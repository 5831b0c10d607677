import Mathlib.Data.String.Basic
import LoopScript.Diagnostic.Render

/-! The column of the caret. A report that shows its line has a row with the line behind a gutter, and
below it a row with a caret behind a margin. The gutter has room for at least three digits of the line
number, while the margin starts as if the number had a single digit; so the caret is never below the
character that the column stands for, but some characters to the left of it, always as many for one
line number. -/

namespace LoopScript.Diagnostic

/-- What stands in front of a source line: its number, and a bar. -/
def gutter (location : Location) : List Char := (alignLineNumber location.line).toList ++ [' ', '|', ' ']

/-- What stands in front of the caret. -/
def margin (location : Location) : List Char :=
  [' ', ' ', ' ', '|', ' '] ++ List.replicate (location.column - 1) ' '

theorem toList_pushn (text : String) (c : Char) (count : Nat) :
    (text.pushn c count).toList = text.toList ++ List.replicate count c := by
  induction count with
  | zero => simp [String.pushn, Nat.repeat]
  | succ count ih =>
      have hpush : text.pushn c (count + 1) = (text.pushn c count).push c := rfl
      rw [hpush, String.toList_push, ih, List.replicate_succ', List.append_assoc]

theorem length_gutter (location : Location) :
    (gutter location).length = max 3 (toString location.line).length + 3 := by
  rw [gutter, alignLineNumber, String.toList_append, toList_pushn]
  simp only [List.length_append, List.length_replicate, List.length_cons, List.length_nil,
    String.length_toList, String.length_empty]
  omega

theorem length_margin (location : Location) :
    (margin location).length = 5 + (location.column - 1) := by
  rw [margin, List.length_append, List.length_replicate]
  rfl

theorem caret_not_mem_margin (location : Location) : '^' ∉ margin location := by
  simp [margin]

def textOf (rows : List String) : List Char := rows.flatMap fun row => row.toList ++ ['\n']

theorem textOf_append (rows rows' : List String) :
    textOf (rows ++ rows') = textOf rows ++ textOf rows' := List.flatMap_append

theorem toList_render (colour : Bool) (report : Diagnostic) :
    (render colour report).toList = textOf (rows colour report) := by
  rw [render, String.toList_join, List.flatMap_map, textOf]
  simp only [String.toList_append]
  rfl

/-- Without colour, the rows of a source line are a bar, the line behind its gutter, the caret behind
its margin, and a bar. -/
theorem textOf_sourceRows (location : Location) (line : String) :
    textOf (sourceRows false location line) =
      [' ', ' ', ' ', '|'] ++ '\n' :: (gutter location ++ line.toList) ++
        '\n' :: (margin location ++ ['^']) ++ '\n' :: [' ', ' ', ' ', '|', '\n'] := by
  simp [textOf, sourceRows, paint, gutter, margin, toList_pushn]

theorem exists_rows_around_source {report : Diagnostic} {line : String} (colour : Bool)
    (hline : report.sourceLine = some line) :
    ∃ front back, rows colour report = front ++ sourceRows colour report.location line ++ back := by
  rw [rows, hline]
  exact ⟨_, _, List.append_assoc _ _ _⟩

theorem newline_not_mem_gutter (location : Location) : '\n' ∉ gutter location := by
  intro hmem
  have hdigits : '\n' ∈ Nat.toDigits 10 location.line := by
    simpa [gutter, alignLineNumber, toList_pushn, Nat.repr] using hmem
  exact absurd (Nat.isDigit_of_mem_toDigits (by decide) (by decide) hdigits) (by decide)

theorem newline_not_mem_margin (location : Location) : '\n' ∉ margin location := by
  simp [margin]

/-- **The caret is left of its character.** In a report that shows its line, without colour, the row of
the line is its gutter and the line, and the row of the caret is below it. The caret stands to the left
of the character that the column counts to, by one place for line numbers of up to three digits, and by
one more for each further digit. -/
theorem caret_is_left_of_its_character {report : Diagnostic} {line : String}
    (hline : report.sourceLine = some line) :
    ∃ above below : List Char,
      (render false report).toList =
        above ++ '\n' :: (gutter report.location ++ line.toList) ++
          '\n' :: (margin report.location ++ ['^']) ++ '\n' :: below ∧
      '\n' ∉ gutter report.location ∧ '\n' ∉ margin report.location ∧ '^' ∉ margin report.location ∧
      (gutter report.location).length + (report.location.column - 1) =
        (margin report.location).length + (max 3 (toString report.location.line).length - 2) ∧
      (margin report.location).length <
        (gutter report.location).length + (report.location.column - 1) := by
  obtain ⟨front, back, hrows⟩ := exists_rows_around_source false hline
  have hgutter := length_gutter report.location
  have hmargin := length_margin report.location
  refine ⟨textOf front ++ [' ', ' ', ' ', '|'], [' ', ' ', ' ', '|', '\n'] ++ textOf back, ?_,
    newline_not_mem_gutter _, newline_not_mem_margin _, caret_not_mem_margin _, by omega, by omega⟩
  rw [toList_render, hrows, textOf_append, textOf_append, textOf_sourceRows]
  simp only [List.append_assoc, List.cons_append]

/-- A report about the fifth column of line 1000. -/
def thousandthReport : Diagnostic where
  kind := .lexical
  message := "Unexpected character '?'"
  location := ⟨1000, 5, none⟩
  sourceLine := some "x = ?"

/-- With a fourth digit, the caret is two places to the left. -/
theorem caret_is_left_of_its_character_thousandth :
    ∃ above below : List Char,
      (render false thousandthReport).toList =
        above ++ '\n' :: ("1000 | x = ?".toList) ++ '\n' :: ("   |     ^".toList) ++ '\n' :: below := by
  have hline : thousandthReport.sourceLine = some "x = ?" := rfl
  obtain ⟨above, below, hrender, -⟩ := caret_is_left_of_its_character hline
  have hgutter : gutter thousandthReport.location = "1000 | ".toList := by decide +kernel
  rw [hgutter, ← String.toList_append] at hrender
  exact ⟨above, below, hrender⟩

/-- A report about the first column of the first line. -/
def questionReport : Diagnostic where
  kind := .lexical
  message := "m"
  location := ⟨1, 1, none⟩
  sourceLine := some "?"

/-- The question mark is the seventh character of its row, and the caret the sixth of the row below. -/
theorem caret_is_not_below_question :
    (rows false questionReport)[3]? = some "  1 | ?" ∧ (rows false questionReport)[4]? = some "   | ^" ∧
      "  1 | ?".toList.idxOf '?' ≠ "   | ^".toList.idxOf '^' := by
  decide +kernel

end LoopScript.Diagnostic
