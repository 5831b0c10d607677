import LoopScript.Text.EditDistance
import Mathlib.Data.List.Induction

/-! The name that is suggested for a misspelled one: of the names that are near the target and not the
target itself, the first that no other one is nearer than. -/

namespace LoopScript.Text

/-- A name may be suggested for a target: few edits lead from the target to it, but at least one. -/
def Near (target name : String) : Prop :=
  editDistance target name ≤ suggestionDistance ∧ name ≠ target

instance (target name : String) : Decidable (Near target name) := inferInstanceAs (Decidable (_ ∧ _))

/-- What is suggested for a target: nothing if no name is near it, or else a name that is nearer than
each near name before it and no farther than each near name after it. -/
inductive Suggests (target : String) (names : List String) : Option String → Prop
  | nothing (hnone : ∀ name ∈ names, ¬ Near target name) : Suggests target names none
  | first {before after : List String} {close : String} (hsplit : names = before ++ close :: after)
      (hnear : Near target close)
      (hbefore : ∀ name ∈ before, Near target name →
        editDistance target close < editDistance target name)
      (hafter : ∀ name ∈ after, Near target name →
        editDistance target close ≤ editDistance target name) :
      Suggests target names (some close)

/-- The nearest name found so far, with its distance. -/
def nearest (target : String) (names : List String) : Option (Nat × String) :=
  ((names.map fun name => (editDistance target name, name)).filter fun (distance, name) =>
    distance ≤ suggestionDistance && name != target).foldl closer none

theorem closest?_eq (target : String) (names : List String) :
    closest? target names = (nearest target names).map (·.2) := rfl

theorem nearest_concat (target : String) (names : List String) (name : String) :
    nearest target (names ++ [name]) =
      if Near target name then closer (nearest target names) (editDistance target name, name)
      else nearest target names := by
  by_cases hnear : Near target name
  · have htest : (editDistance target name ≤ suggestionDistance && name != target) = true := by
      simpa [Near] using hnear
    simp [nearest, htest, hnear]
  · have htest : (editDistance target name ≤ suggestionDistance && name != target) = false := by
      simpa [Near] using hnear
    simp [nearest, htest, hnear]

variable {target name : String} {names : List String}

/-! ### One more name -/

theorem Suggests.concat_far {found : Option String} (h : Suggests target names found)
    (hfar : ¬ Near target name) : Suggests target (names ++ [name]) found := by
  cases h with
  | nothing hnone =>
      refine .nothing fun other hother => ?_
      rcases List.mem_append.mp hother with hother | hother
      · exact hnone other hother
      · rwa [List.mem_singleton.mp hother]
  | first hsplit hclose hbefore hafter =>
      refine .first (by rw [hsplit, List.append_assoc]; rfl) hclose hbefore ?_
      intro other hother hnear
      rcases List.mem_append.mp hother with hother | hother
      · exact hafter other hother hnear
      · rw [List.mem_singleton.mp hother] at hnear
        exact absurd hnear hfar

theorem Suggests.concat_first (h : Suggests target names none) (hnear : Near target name) :
    Suggests target (names ++ [name]) (some name) := by
  cases h with
  | nothing hnone =>
      refine .first rfl hnear ?_ (by simp)
      intro other hother hother'
      exact absurd hother' (hnone other hother)

theorem Suggests.concat_nearer {close : String} (h : Suggests target names (some close))
    (hnear : Near target name) (hless : editDistance target name < editDistance target close) :
    Suggests target (names ++ [name]) (some name) := by
  cases h with
  | first hsplit hclose hbefore hafter =>
      refine .first rfl hnear ?_ (by simp)
      intro other hother hother'
      rw [hsplit, List.mem_append, List.mem_cons] at hother
      rcases hother with hother | rfl | hother
      · exact Nat.lt_trans hless (hbefore other hother hother')
      · exact hless
      · exact Nat.lt_of_lt_of_le hless (hafter other hother hother')

theorem Suggests.concat_kept {close : String} (h : Suggests target names (some close))
    (hkept : editDistance target close ≤ editDistance target name) :
    Suggests target (names ++ [name]) (some close) := by
  cases h with
  | first hsplit hclose hbefore hafter =>
      refine .first (by rw [hsplit, List.append_assoc]; rfl) hclose hbefore ?_
      intro other hother hother'
      rcases List.mem_append.mp hother with hother | hother
      · exact hafter other hother hother'
      · rwa [List.mem_singleton.mp hother]

/-! ### All names -/

/-- The nearest name found so far is kept with its distance. -/
theorem nearest_spec (target : String) (names : List String) :
    ∃ found, nearest target names = found.map (fun name => (editDistance target name, name)) ∧
      Suggests target names found := by
  induction names using List.reverseRecOn with
  | nil => exact ⟨none, rfl, .nothing (by simp)⟩
  | append_singleton names name ih =>
      obtain ⟨found, hfound, hsuggests⟩ := ih
      rw [nearest_concat, hfound]
      by_cases hnear : Near target name
      · rw [if_pos hnear]
        cases found with
        | none => exact ⟨some name, rfl, hsuggests.concat_first hnear⟩
        | some close =>
            simp only [Option.map_some, closer]
            split
            · next hless => exact ⟨some name, rfl, hsuggests.concat_nearer hnear hless⟩
            · next hless => exact ⟨some close, rfl, hsuggests.concat_kept (Nat.le_of_not_lt hless)⟩
      · rw [if_neg hnear]
        exact ⟨found, rfl, hsuggests.concat_far hnear⟩

/-- The closest name is the one to be suggested. -/
theorem suggests_closest? (target : String) (names : List String) :
    Suggests target names (closest? target names) := by
  obtain ⟨found, hfound, hsuggests⟩ := nearest_spec target names
  have hname : closest? target names = found := by
    rw [closest?_eq, hfound, Option.map_map]
    exact Option.map_id'
  rwa [hname]

end LoopScript.Text
