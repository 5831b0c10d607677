import LoopScript.Text.EditDistance
import Mathlib.Order.Bounds.Basic
import Mathlib.Order.MinMax

/-! The distance between two texts is the least number of edits that turn the one into the other.

A row holds, for one text, the least number of edits to every prefix of the other (`Row`). Edits may be
made anywhere and in any order; they can be put in order, so that they go through both texts once
(`Aligned`), and then the last step of an order says from which cells the next one comes. The texts of a
row are read from their ends, since it is there that the computation adds characters to them.

The row may as well be overwritten in place, cell by cell and by index. No index is out of range then. -/

namespace LoopScript.Text

/-- One edit: a character of a text is inserted, deleted or replaced. -/
inductive Edit : List Char → List Char → Prop
  | insert (before after : List Char) (c : Char) : Edit (before ++ after) (before ++ c :: after)
  | delete (before after : List Char) (c : Char) : Edit (before ++ c :: after) (before ++ after)
  | replace (before after : List Char) (c d : Char) : Edit (before ++ c :: after) (before ++ d :: after)

/-- A text is turned into another by so many edits, one after the other. -/
inductive Edits : Nat → List Char → List Char → Prop
  | nil (text : List Char) : Edits 0 text text
  | cons {count : Nat} {source middle target : List Char} (first : Edit source middle)
      (rest : Edits count middle target) : Edits (count + 1) source target

/-- A way through two texts from their fronts to their ends, and the number of edits on it. -/
inductive Aligned : List Char → List Char → Nat → Prop
  | nil : Aligned [] [] 0
  | keep {source target count} (c : Char) (h : Aligned source target count) :
      Aligned (c :: source) (c :: target) count
  | replace {source target count} (c d : Char) (h : Aligned source target count) :
      Aligned (c :: source) (d :: target) (count + 1)
  | insert {source target count} (d : Char) (h : Aligned source target count) :
      Aligned source (d :: target) (count + 1)
  | delete {source target count} (c : Char) (h : Aligned source target count) :
      Aligned (c :: source) target (count + 1)

/-! ### Edits put in order -/

theorem aligned_self (text : List Char) : Aligned text text 0 := by
  induction text with
  | nil => exact .nil
  | cons c text ih => exact .keep c ih

/-- Whatever can be reached from the second text can be reached from the first with one edit more. -/
def OneFarther (source middle : List Char) : Prop :=
  ∀ ⦃target count⦄, Aligned middle target count → ∃ less ≤ count + 1, Aligned source target less

/-- On a way through a text, characters may be inserted before the first one of the text is used. What
happens to that one decides. -/
theorem oneFarther_of_first {source middle : List Char} (c : Char)
    (hkeep : ∀ target count, Aligned middle target count →
      ∃ less ≤ count + 1, Aligned source (c :: target) less)
    (hreplace : ∀ d target count, Aligned middle target count →
      ∃ less ≤ count + 2, Aligned source (d :: target) less)
    (hdelete : ∀ target count, Aligned middle target count →
      ∃ less ≤ count + 2, Aligned source target less) : OneFarther source (c :: middle) := by
  intro target count h
  generalize hwhole : c :: middle = whole at h
  induction h with
  | nil => cases hwhole
  | keep d hrest =>
      obtain ⟨rfl, rfl⟩ := List.cons.inj hwhole
      exact hkeep _ _ hrest
  | replace d e hrest =>
      obtain ⟨rfl, rfl⟩ := List.cons.inj hwhole
      exact hreplace e _ _ hrest
  | insert d _ ih =>
      obtain ⟨less, hless, haligned⟩ := ih hwhole
      exact ⟨less + 1, by omega, .insert d haligned⟩
  | delete d hrest =>
      obtain ⟨rfl, rfl⟩ := List.cons.inj hwhole
      exact hdelete _ _ hrest

theorem oneFarther_insert (c : Char) (source : List Char) : OneFarther source (c :: source) := by
  apply oneFarther_of_first
  · exact fun _ count h => ⟨count + 1, le_rfl, .insert c h⟩
  · exact fun d _ count h => ⟨count + 1, by omega, .insert d h⟩
  · exact fun _ count h => ⟨count, by omega, h⟩

theorem oneFarther_delete (c : Char) (source : List Char) : OneFarther (c :: source) source :=
  fun _ count h => ⟨count + 1, le_rfl, .delete c h⟩

theorem oneFarther_replace (c d : Char) (source : List Char) :
    OneFarther (c :: source) (d :: source) := by
  apply oneFarther_of_first
  · exact fun _ count h => ⟨count + 1, le_rfl, .replace c d h⟩
  · exact fun e _ count h => ⟨count + 1, by omega, .replace c e h⟩
  · exact fun _ count h => ⟨count + 1, by omega, .delete c h⟩

/-- What an edit does behind a character it also does to the whole text. -/
theorem OneFarther.cons {source middle : List Char} (h : OneFarther source middle) (c : Char) :
    OneFarther (c :: source) (c :: middle) := by
  apply oneFarther_of_first
  · intro target count haligned
    obtain ⟨less, hless, hkept⟩ := h haligned
    exact ⟨less, hless, .keep c hkept⟩
  · intro d target count haligned
    obtain ⟨less, hless, hkept⟩ := h haligned
    exact ⟨less + 1, by omega, .replace c d hkept⟩
  · intro target count haligned
    obtain ⟨less, hless, hkept⟩ := h haligned
    exact ⟨less + 1, by omega, .delete c hkept⟩

theorem OneFarther.append {source middle : List Char} (h : OneFarther source middle)
    (before : List Char) : OneFarther (before ++ source) (before ++ middle) := by
  induction before with
  | nil => exact h
  | cons c before ih => exact ih.cons c

theorem Edit.oneFarther {source middle : List Char} (h : Edit source middle) :
    OneFarther source middle := by
  cases h with
  | insert before after c => exact (oneFarther_insert c after).append before
  | delete before after c => exact (oneFarther_delete c after).append before
  | replace before after c d => exact (oneFarther_replace c d after).append before

/-- Edits in any order are at least as many as those on some way through the texts. -/
theorem Edits.exists_aligned {count : Nat} {source target : List Char} (h : Edits count source target) :
    ∃ less ≤ count, Aligned source target less := by
  induction h with
  | nil text => exact ⟨0, le_rfl, aligned_self text⟩
  | cons first _ ih =>
      obtain ⟨most, hmost, haligned⟩ := ih
      obtain ⟨less, hless, hwhole⟩ := first.oneFarther haligned
      exact ⟨less, by omega, hwhole⟩

theorem Edit.cons {source target : List Char} (h : Edit source target) (c : Char) :
    Edit (c :: source) (c :: target) := by
  cases h with
  | insert before after d => exact .insert (c :: before) after d
  | delete before after d => exact .delete (c :: before) after d
  | replace before after d e => exact .replace (c :: before) after d e

theorem Edits.map {change : List Char → List Char}
    (hchange : ∀ source target, Edit source target → Edit (change source) (change target))
    {count : Nat} {source target : List Char} (h : Edits count source target) :
    Edits count (change source) (change target) := by
  induction h with
  | nil text => exact .nil _
  | cons first _ ih => exact .cons (hchange _ _ first) ih

theorem Aligned.edits {source target : List Char} {count : Nat} (h : Aligned source target count) :
    Edits count source target := by
  induction h with
  | nil => exact .nil []
  | keep c _ ih => exact ih.map fun _ _ first => first.cons c
  | @replace source _ _ c d _ ih =>
      exact .cons (.replace [] source c d) (ih.map fun _ _ first => first.cons d)
  | @insert source _ _ d _ ih => exact .cons (.insert [] source d) (ih.map fun _ _ first => first.cons d)
  | @delete source _ _ c _ ih => exact .cons (.delete [] source c) ih

theorem Edit.reverse {source target : List Char} (h : Edit source target) :
    Edit source.reverse target.reverse := by
  cases h with
  | insert before after c => simpa using Edit.insert after.reverse before.reverse c
  | delete before after c => simpa using Edit.delete after.reverse before.reverse c
  | replace before after c d => simpa using Edit.replace after.reverse before.reverse c d

theorem edits_reverse_iff {count : Nat} {source target : List Char} :
    Edits count source.reverse target.reverse ↔ Edits count source target := by
  constructor
  · intro h
    simpa using h.map fun _ _ first => first.reverse
  · exact fun h => h.map fun _ _ first => first.reverse

/-! ### Cells -/

/-- The least number of edits on a way through two texts. -/
def Cell (source target : List Char) (cell : Nat) : Prop :=
  IsLeast {count | Aligned source target count} cell

theorem Aligned.length_le {source target : List Char} {count : Nat} (h : Aligned source target count) :
    source.length ≤ target.length + count ∧ target.length ≤ source.length + count := by
  induction h with
  | nil => simp
  | keep | replace | insert | delete => simp only [List.length_cons]; omega

theorem cell_nil_left (target : List Char) : Cell [] target target.length := by
  refine ⟨?_, fun count h => by simpa using (Aligned.length_le h).2⟩
  induction target with
  | nil => exact .nil
  | cons d target ih => exact .insert d ih

theorem cell_nil_right (source : List Char) : Cell source [] source.length := by
  refine ⟨?_, fun count h => by simpa using (Aligned.length_le h).1⟩
  induction source with
  | nil => exact .nil
  | cons c source ih => exact .delete c ih

/-- A cell comes from the one above, the one on the left and the one in the corner. -/
theorem Cell.next {source target : List Char} {c d : Char} {above left corner : Nat}
    (habove : Cell source (d :: target) above) (hleft : Cell (c :: source) target left)
    (hcorner : Cell source target corner) :
    Cell (c :: source) (d :: target)
      (min (min (above + 1) (left + 1)) (corner + if c = d then 0 else 1)) := by
  constructor
  · have hdiagonal : Aligned (c :: source) (d :: target) (corner + if c = d then 0 else 1) := by
      by_cases hsame : c = d
      · subst hsame
        simpa using Aligned.keep c hcorner.1
      · simpa [hsame] using Aligned.replace c d hcorner.1
    have hdelete : Aligned (c :: source) (d :: target) (above + 1) := .delete c habove.1
    have hinsert : Aligned (c :: source) (d :: target) (left + 1) := .insert d hleft.1
    rcases min_choice (min (above + 1) (left + 1)) (corner + if c = d then 0 else 1) with h | h
    · rcases min_choice (above + 1) (left + 1) with h' | h'
      · rw [h, h']
        exact hdelete
      · rw [h, h']
        exact hinsert
    · rw [h]
      exact hdiagonal
  · intro count h
    cases h with
    | keep _ hrest =>
        have hle : corner ≤ count := hcorner.2 hrest
        rw [if_pos rfl]
        omega
    | replace _ _ hrest =>
        have hle : corner ≤ _ := hcorner.2 hrest
        split <;> omega
    | insert _ hrest =>
        have hle : left ≤ _ := hleft.2 hrest
        omega
    | delete _ hrest =>
        have hle : above ≤ _ := habove.2 hrest
        omega

theorem Cell.isLeast_edits {source target : List Char} {cell : Nat}
    (h : Cell source.reverse target.reverse cell) : IsLeast {count | Edits count source target} cell := by
  refine ⟨edits_reverse_iff.mp (Aligned.edits h.1), fun count hcount => ?_⟩
  obtain ⟨less, hless, haligned⟩ := (edits_reverse_iff.mpr hcount).exists_aligned
  exact (h.2 haligned).trans hless

/-! ### Rows -/

/-- Cells for the prefixes of a text that are longer than what has been passed of it. -/
inductive Row (source : List Char) : (passed text : List Char) → List Nat → Prop
  | nil {passed} : Row source passed [] []
  | cons {passed text d cell cells} (head : Cell source (d :: passed) cell)
      (tail : Row source (d :: passed) text cells) : Row source passed (d :: text) (cell :: cells)

theorem Row.length_eq {source passed text : List Char} {cells : List Nat}
    (h : Row source passed text cells) : cells.length = text.length := by
  induction h with
  | nil => rfl
  | cons _ _ ih => rw [List.length_cons, List.length_cons, ih]

theorem Row.fill {source passed text : List Char} {cells : List Nat} {c : Char} {left corner : Nat}
    (h : Row source passed text cells) (hleft : Cell (c :: source) passed left)
    (hcorner : Cell source passed corner) :
    Row (c :: source) passed text (fillRow c left corner text cells) := by
  induction h generalizing left corner with
  | nil => exact .nil
  | cons head _ ih =>
      have hcell := head.next hleft hcorner
      exact .cons hcell (ih hcell head)

theorem row_first (passed text : List Char) :
    Row [] passed text (List.range' (passed.length + 1) text.length) := by
  induction text generalizing passed with
  | nil => exact .nil
  | cons d text ih =>
      rw [List.length_cons, List.range'_succ]
      exact .cons (cell_nil_left (d :: passed)) (ih (d :: passed))

theorem Row.last {source passed text : List Char} {cells : List Nat} {first : Nat}
    (h : Row source passed text cells) (hfirst : Cell source passed first) :
    Cell source (text.reverse ++ passed) ((first :: cells).getLastD 0) := by
  induction h generalizing first with
  | nil => exact hfirst
  | @cons passed text d cell cells head _ ih =>
      rw [List.reverse_cons, List.append_assoc]
      exact ih head

/-- The row of a text: the number of its characters, and then a cell for each prefix of the other text. -/
def WholeRow (source text : List Char) (row : List Nat) : Prop :=
  ∃ cells, row = source.length :: cells ∧ Row source [] text cells

theorem wholeRow_first (text : List Char) : WholeRow [] text (List.range (text.length + 1)) := by
  refine ⟨List.range' 1 text.length, ?_, row_first [] text⟩
  rw [List.range_eq_range', List.range'_succ]
  rfl

theorem WholeRow.next {source text : List Char} {row : List Nat} (h : WholeRow source text row)
    (c : Char) : WholeRow (c :: source) text (nextRow text row c) := by
  obtain ⟨cells, rfl, hrow⟩ := h
  exact ⟨_, rfl, hrow.fill (cell_nil_right (c :: source)) (cell_nil_right source)⟩

theorem WholeRow.foldl {source text : List Char} {row : List Nat} (h : WholeRow source text row)
    (more : List Char) : WholeRow (more.reverse ++ source) text (more.foldl (nextRow text) row) := by
  induction more generalizing source row with
  | nil => exact h
  | cons c more ih =>
      rw [List.reverse_cons, List.append_assoc]
      exact ih (h.next c)

/-! ### One row, overwritten in place -/

/-- Overwrites the cell with an index, if there is one. The cell before it is that of the new row already;
`corner` is what that one held before. -/
def overwriteCell (c : Char) (text : List Char) :
    Nat × List Nat → Nat → Option (Nat × List Nat)
  | (corner, row), index => do
      let d ← text[index - 1]?
      let above ← row[index]?
      let left ← row[index - 1]?
      let cell := min (min (above + 1) (left + 1)) (corner + if c = d then 0 else 1)
      return (above, row.set index cell)

/-- Overwrites the row with that for one more character of the source, the one with this number. -/
def overwriteRow (source text : List Char) (row : List Nat) (number : Nat) : Option (List Nat) := do
  let c ← source[number - 1]?
  let corner ← row[0]?
  let (_, row) ← (List.range' 1 text.length).foldlM (overwriteCell c text) (corner, row.set 0 number)
  return row

/-- The distance between two texts by one row that is overwritten in place; none if an index is out of
range. -/
def distanceInPlace? (source target : List Char) : Option Nat :=
  if source = [] then some target.length
  else if target = [] then some source.length
  else do
    let row ← (List.range' 1 source.length).foldlM (overwriteRow source target)
      (List.range (target.length + 1))
    row[target.length]?

/-- The cells in front of an index are those of the new row, the others those of the old one. -/
theorem foldlM_overwriteCell (c : Char) {passed text : List Char} {done old : List Nat} (left corner : Nat)
    (hdone : done.length = passed.length) (hold : old.length = text.length) :
    ∃ last, (List.range' (passed.length + 1) text.length).foldlM (overwriteCell c (passed ++ text))
        (corner, done ++ left :: old) =
      some (last, done ++ left :: fillRow c left corner text old) := by
  induction text generalizing passed done old left corner with
  | nil =>
      obtain rfl := List.length_eq_zero_iff.mp hold
      exact ⟨corner, rfl⟩
  | cons d text ih =>
      obtain ⟨above, old, rfl⟩ := List.exists_cons_of_length_eq_add_one hold
      have hcell : overwriteCell c (passed ++ d :: text) (corner, done ++ left :: above :: old)
          (passed.length + 1) = some (above, (done ++ [left]) ++
            min (min (above + 1) (left + 1)) (corner + if c = d then 0 else 1) :: old) := by
        simp [overwriteCell, ← hdone]
      have hdone : (done ++ [left]).length = (passed ++ [d]).length := by
        rw [List.length_append, List.length_append, hdone]
        rfl
      obtain ⟨last, hlast⟩ := ih (min (min (above + 1) (left + 1)) (corner + if c = d then 0 else 1)) above
        hdone (Nat.succ.inj hold)
      refine ⟨last, ?_⟩
      rw [List.length_cons, List.range'_succ, List.foldlM_cons, hcell, fillRow]
      simpa using hlast

/-- Overwriting gives the next row. -/
theorem WholeRow.overwriteRow {before after text : List Char} {row : List Nat} {c : Char}
    (h : WholeRow before.reverse text row) :
    overwriteRow (before ++ c :: after) text row (before.length + 1) = some (nextRow text row c) := by
  obtain ⟨cells, rfl, hrow⟩ := h
  obtain ⟨last, hlast⟩ : ∃ last, (List.range' 1 text.length).foldlM (overwriteCell c text)
      (before.length, (before.length + 1) :: cells) =
        some (last, (before.length + 1) :: fillRow c (before.length + 1) before.length text cells) := by
    have hempty : ([] : List Nat).length = ([] : List Char).length := rfl
    exact foldlM_overwriteCell c (before.length + 1) before.length hempty hrow.length_eq
  simp [Text.overwriteRow, hlast, nextRow]

theorem WholeRow.foldlM_overwriteRow {before after text : List Char} {row : List Nat}
    (h : WholeRow before.reverse text row) :
    (List.range' (before.length + 1) after.length).foldlM (Text.overwriteRow (before ++ after) text) row =
      some (after.foldl (nextRow text) row) := by
  induction after generalizing before row with
  | nil => rfl
  | cons c after ih =>
      have hnext : WholeRow (before ++ [c]).reverse text (nextRow text row c) := by
        simpa using h.next c
      rw [List.length_cons, List.range'_succ, List.foldlM_cons, h.overwriteRow]
      simpa using ih hnext

theorem WholeRow.getElem?_last {source text : List Char} {row : List Nat} (h : WholeRow source text row) :
    row[text.length]? = some (row.getLastD 0) := by
  obtain ⟨cells, rfl, hrow⟩ := h
  rw [List.getLastD_eq_getLast?, List.getLast?_eq_getElem?, List.length_cons, hrow.length_eq]
  simp [← hrow.length_eq]

theorem wholeRow_editDistance (source target : List Char) :
    WholeRow source.reverse target
      (source.foldl (nextRow target) (List.range (target.length + 1))) := by
  simpa using (wholeRow_first target).foldl source

theorem cell_editDistance (source target : String) :
    Cell source.toList.reverse target.toList.reverse (editDistance source target) := by
  obtain ⟨cells, hcells, hrow⟩ := wholeRow_editDistance source.toList target.toList
  have hlast := hrow.last (cell_nil_right source.toList.reverse)
  rw [List.append_nil, ← hcells] at hlast
  exact hlast

theorem distanceInPlace?_eq (source target : String) :
    distanceInPlace? source.toList target.toList = some (editDistance source target) := by
  have hcell := cell_editDistance source target
  rw [distanceInPlace?]
  split
  · next hsource =>
      rw [hsource] at hcell
      have hlength := hcell.unique (cell_nil_left target.toList.reverse)
      rw [hlength, List.length_reverse]
  · split
    · next htarget =>
        rw [htarget] at hcell
        have hlength := hcell.unique (cell_nil_right source.toList.reverse)
        rw [hlength, List.length_reverse]
    · have hfirst : WholeRow ([] : List Char).reverse target.toList (List.range (target.toList.length + 1)) :=
        wholeRow_first target.toList
      have hrows : (List.range' 1 source.toList.length).foldlM (overwriteRow source.toList target.toList)
          (List.range (target.toList.length + 1)) =
            some (source.toList.foldl (nextRow target.toList) (List.range (target.toList.length + 1))) :=
        hfirst.foldlM_overwriteRow
      rw [hrows]
      exact (wholeRow_editDistance source.toList target.toList).getElem?_last

/-- **The distance is the least number of edits.** Computed with a single row that is overwritten in place,
the distance between two texts is found without an index out of range, and no fewer insertions, deletions
and replacements of single characters than it says turn the first text into the second. -/
theorem editDistance_isLeast_edits (source target : String) :
    distanceInPlace? source.toList target.toList = some (editDistance source target) ∧
      IsLeast {count | Edits count source.toList target.toList} (editDistance source target) :=
  ⟨distanceInPlace?_eq source target, (cell_editDistance source target).isLeast_edits⟩

example : editDistance "kitten" "sitting" = 3 := by decide

end LoopScript.Text
