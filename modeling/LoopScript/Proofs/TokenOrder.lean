import LoopScript.Proofs.Seams

/-! The tokens of a text are at different places, and their places are in the order of the text. -/

namespace LoopScript

/-- A place is in an earlier line than another, or further to the left in the same line. -/
def Location.Before (place other : Location) : Prop :=
  place.line < other.line ∨ place.line = other.line ∧ place.column < other.column

namespace Location

theorem Before.trans {first second third : Location} (h : first.Before second)
    (h' : second.Before third) : first.Before third := by
  unfold Before at *
  omega

theorem Before.ne {place other : Location} (h : place.Before other) : place ≠ other := by
  rintro rfl
  unfold Before at h
  omega

theorem before_step (place : Location) (c : Char) : place.Before (place.step c) := by
  unfold Before step
  split
  · exact .inl (Nat.lt_succ_self _)
  · exact .inr ⟨rfl, Nat.lt_succ_self _⟩

/-- Behind at least one character, every place is a later one. -/
theorem before_after (place : Location) {run : List Char} (hrun : run ≠ []) :
    place.Before (place.after run) := by
  induction run generalizing place with
  | nil => exact absurd rfl hrun
  | cons c run ih =>
      have hstep : place.after (c :: run) = (place.step c).after run := rfl
      rw [hstep]
      by_cases hend : run = []
      · subst hend
        exact before_step place c
      · exact (before_step place c).trans (ih (place.step c) hend)

end Location

namespace Lexicon

theorem placeAfter_before (before : List Char) {run : List Char} (hrun : run ≠ []) :
    (placeAfter before).Before (placeAfter (before ++ run)) := by
  rw [← after_placeAfter]
  exact Location.before_after _ hrun

/-- Each token is at a later place than the tokens in front of it. -/
theorem Segments.pairwise_before {behind before cut : List Char} {ts : List Token}
    (h : Segments behind before cut ts) :
    ts.Pairwise fun token later => token.location.Before later.location := by
  induction h with
  | nil => exact List.Pairwise.nil
  | @cons before lexeme cut kind ts hmunch tail ih =>
      refine List.pairwise_cons.mpr ⟨?_, ih⟩
      intro later hlater
      obtain ⟨front, back, -, -, hplace⟩ := tail.exists_front hlater
      rw [hplace, List.append_assoc]
      apply placeAfter_before
      exact List.append_ne_nil_of_left_ne_nil hmunch.lexical.ne_nil front

theorem Segments.nodup {behind before cut : List Char} {ts : List Token}
    (h : Segments behind before cut ts) : ts.Nodup := by
  refine h.pairwise_before.imp ?_
  rintro token later hbefore rfl
  exact hbefore.ne rfl

end Lexicon
end LoopScript
