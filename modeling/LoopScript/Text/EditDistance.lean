/-! Edit distance, and the closest of several names.

The distance between two texts is the least number of single characters to insert, delete or
replace. It is computed row by row: the row of a prefix of the first text holds its distance to
every prefix of the second, and only one row is kept. -/

namespace LoopScript.Text

/-- The cells of a row after its first, from the row above. `left` is the cell just filled and
`corner` the cell above it. -/
def fillRow (a : Char) : (left corner : Nat) → List Char → List Nat → List Nat
  | left, corner, b :: text, above :: row =>
      let cell := min (min (above + 1) (left + 1)) (corner + if a = b then 0 else 1)
      cell :: fillRow a cell above text row
  | _, _, _, _ => []

/-- The row for one more character `a` of the first text. -/
def nextRow (text : List Char) (row : List Nat) (a : Char) : List Nat :=
  match row with
  | [] => []
  | first :: above => (first + 1) :: fillRow a (first + 1) first text above

/-- The number of single-character edits between two texts. -/
def editDistance (source target : String) : Nat :=
  let first := List.range (target.toList.length + 1)
  (source.toList.foldl (nextRow target.toList) first).getLastD 0

/-- How far a name may be from its target and still be suggested. -/
def suggestionDistance : Nat := 2

/-- Keeps the earlier of two candidates unless the later one is strictly closer. -/
def closer (best : Option (Nat × String)) (next : Nat × String) : Option (Nat × String) :=
  match best with
  | none => some next
  | some kept => if next.1 < kept.1 then some next else some kept

/-- The first candidate at the least distance, among those near the target and different from it. -/
def closest? (target : String) (candidates : List String) : Option String :=
  let measured := candidates.map fun name => (editDistance target name, name)
  let near := measured.filter fun (distance, name) =>
    distance ≤ suggestionDistance && name != target
  (near.foldl closer none).map (·.2)

end LoopScript.Text
