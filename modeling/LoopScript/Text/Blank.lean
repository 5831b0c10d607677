/-! Blank characters, and the words between them.

A character is blank when it has the Unicode property White_Space; the property is a short list of
ranges. Words are the maximal runs of characters that are not blank. -/

namespace LoopScript.Text

/-- The code points with the property White_Space, as closed ranges in increasing order. -/
def blankRanges : List (Nat × Nat) :=
  [(0x9, 0xD), (0x20, 0x20), (0x85, 0x85), (0xA0, 0xA0), (0x1680, 0x1680), (0x2000, 0x200A),
   (0x2028, 0x2029), (0x202F, 0x202F), (0x205F, 0x205F), (0x3000, 0x3000)]

/-- Whether a character has the property White_Space. -/
def isBlank (c : Char) : Bool :=
  blankRanges.any fun (low, high) => low ≤ c.toNat && c.toNat ≤ high

/-- The words of a text whose last characters, in reverse, are still waiting for their end. -/
def wordsFrom : (waiting : List Char) → List Char → List (List Char)
  | [], [] => []
  | waiting, [] => [waiting.reverse]
  | waiting, c :: rest =>
      if isBlank c then
        match waiting with
        | [] => wordsFrom [] rest
        | _ :: _ => waiting.reverse :: wordsFrom [] rest
      else wordsFrom (c :: waiting) rest

/-- The maximal runs of characters that are not blank, in order. -/
def words (text : String) : List String :=
  (wordsFrom [] text.toList).map String.ofList

/-- A text without the blanks at its two ends. -/
def trim (text : String) : String :=
  let front := text.toList.dropWhile isBlank
  String.ofList (front.reverse.dropWhile isBlank).reverse

end LoopScript.Text
