import LoopScript.Diagnostic.Cause
import LoopScript.Number.Literal
import LoopScript.Text.Blank

/-! Numbers as a program reads them.

The input is bytes, cut into lines. A line is read only when all words of the lines before it have
been used. A line that is not UTF-8 is an error and is skipped; a word that is not a number is an
error and is skipped too. -/

namespace LoopScript

open Diagnostic (Cause)

/-- The unread bytes, the unread words of the current line, and its number. -/
structure NumberInput where
  unread : List UInt8 := []
  words : List String := []
  line : Nat := 0
deriving DecidableEq

namespace NumberInput

def newlineByte : UInt8 := 10

/-- The first line of some bytes with its line end, and the bytes after it. -/
def cutLine : List UInt8 → List UInt8 × List UInt8
  | [] => ([], [])
  | byte :: rest =>
      if byte = newlineByte then ([byte], rest)
      else
        let (line, after) := cutLine rest
        (byte :: line, after)

/-- A line and what follows it are all the bytes. -/
theorem cutLine_append (bytes : List UInt8) : (cutLine bytes).1 ++ (cutLine bytes).2 = bytes := by
  induction bytes with
  | nil => rfl
  | cons byte rest ih =>
      rw [cutLine]
      split
      · rfl
      · simpa using ih

theorem cutLine_length_lt (byte : UInt8) (rest : List UInt8) :
    (cutLine (byte :: rest)).2.length < (byte :: rest).length := by
  have happend := congrArg List.length (cutLine_append rest)
  rw [List.length_append] at happend
  rw [cutLine]
  split
  · simp
  · simp only [List.length_cons]
    omega

/-- The text of some bytes, if they are UTF-8. -/
def decode? (bytes : List UInt8) : Option String := String.fromUTF8? ⟨bytes.toArray⟩

/-- Why a line that is not UTF-8 cannot be read. -/
def notUtf8 : String := "stream did not contain valid UTF-8"

/-- Takes the next number, or says why there is none. -/
def next (input : NumberInput) : Except Cause Float × NumberInput :=
  match input with
  | ⟨unread, word :: words, line⟩ =>
      let result :=
        match Number.Literal.value? word with
        | some value => .ok value
        | none => .error (.notNumeric line word)
      (result, ⟨unread, words, line⟩)
  | ⟨[], [], line⟩ => (.error .endOfInput, ⟨[], [], line⟩)
  | ⟨byte :: rest, [], line⟩ =>
      match decode? (cutLine (byte :: rest)).1 with
      | none => (.error (.unreadable notUtf8), ⟨(cutLine (byte :: rest)).2, [], line⟩)
      | some text => next ⟨(cutLine (byte :: rest)).2, Text.words text, line + 1⟩
termination_by input.unread.length
decreasing_by exact cutLine_length_lt byte rest

end NumberInput
end LoopScript
