import LoopScript.Proofs.JsonTexts

/-! The layout of JSON texts. Outside its strings, which it does not change, an indented text has the
characters of the compact one and, in addition, the blanks and newlines of its layout. So the layout can
be taken away again, by a scan that knows only whether it is inside a string (`stripped_indented`). -/

namespace LoopScript.Text.Json

/-- Where in a text a scan is: outside all strings, inside one, or behind a backslash in one. -/
inductive Zone where
  | outside | inside | escaped
deriving DecidableEq

def Zone.next : Zone → Char → Zone
  | outside, c => if c = '"' then inside else outside
  | inside, c => if c = '"' then outside else if c = '\\' then escaped else inside
  | escaped, _ => inside

/-- Blanks and newlines, when they are not part of a string. -/
def isLayout (zone : Zone) (c : Char) : Bool := zone = .outside && (c = ' ' || c = '\n')

/-- A text without the blanks and newlines outside its strings. -/
def stripped : Zone → List Char → List Char
  | _, [] => []
  | zone, c :: rest =>
      if isLayout zone c then stripped (zone.next c) rest else c :: stripped (zone.next c) rest

/-! ### Characters outside strings -/

/-- A character that is neither layout nor the start of a string. -/
def isPlain (c : Char) : Bool := c ≠ ' ' && c ≠ '\n' && c ≠ '"'

theorem stripped_cons {c : Char} (h : isPlain c = true) (rest : List Char) :
    stripped .outside (c :: rest) = c :: stripped .outside rest := by
  simp only [isPlain, Bool.and_eq_true, decide_eq_true_eq] at h
  simp [stripped, isLayout, Zone.next, h.1.1, h.1.2, h.2]

theorem stripped_append {text : List Char} (h : ∀ c ∈ text, isPlain c = true) (rest : List Char) :
    stripped .outside (text ++ rest) = text ++ stripped .outside rest := by
  induction text with
  | nil => rfl
  | cons c text ih =>
      obtain ⟨hc, htext⟩ := List.forall_mem_cons.mp h
      rw [List.cons_append, stripped_cons hc, ih htext]
      rfl

theorem isPlain_of_isScalar {c : Char} (h : isScalar c = true) : isPlain c = true := by
  simp only [isPlain, Bool.and_eq_true, decide_eq_true_eq]
  refine ⟨⟨?_, ?_⟩, ?_⟩
  all_goals
    rintro rfl
    revert h
    decide

theorem stripped_blank (rest : List Char) : stripped .outside (' ' :: rest) = stripped .outside rest := rfl

theorem stripped_newline (depth : ℕ) (rest : List Char) :
    stripped .outside (newline depth ++ rest) = stripped .outside rest := by
  have hblanks : ∀ count, stripped .outside (List.replicate count ' ' ++ rest) = stripped .outside rest := by
    intro count
    induction count with
    | zero => rfl
    | succ count ih => rw [List.replicate_succ, List.cons_append, stripped_blank, ih]
  exact hblanks (2 * depth)

/-! ### Strings -/

theorem stripped_inside_cons {c : Char} (hquote : c ≠ '"') (hbackslash : c ≠ '\\') (rest : List Char) :
    stripped .inside (c :: rest) = c :: stripped .inside rest := by
  simp [stripped, isLayout, Zone.next, hquote, hbackslash]

/-- A character is passed without leaving the string, in whatever way it is written. -/
theorem stripped_escapeChar (c : Char) (rest : List Char) :
    stripped .inside (escapeChar c ++ rest) = escapeChar c ++ stripped .inside rest := by
  have hdigit : ∀ value < 16, hexDigit value ≠ '"' ∧ hexDigit value ≠ '\\' := by decide
  unfold escapeChar
  split
  all_goals try rfl
  next hquote hbackslash _ _ _ _ _ =>
    split
    · next hlt =>
        obtain ⟨hhigh, hhigh'⟩ := hdigit (c.toNat / 16) (by omega)
        obtain ⟨hlow, hlow'⟩ := hdigit (c.toNat % 16) (Nat.mod_lt _ (by decide))
        have hfront : stripped .inside ('\\' :: 'u' :: '0' :: '0' ::
            hexDigit (c.toNat / 16) :: hexDigit (c.toNat % 16) :: rest) =
            '\\' :: 'u' :: '0' :: '0' ::
              stripped .inside (hexDigit (c.toNat / 16) :: hexDigit (c.toNat % 16) :: rest) := rfl
        refine hfront.trans ?_
        rw [stripped_inside_cons hhigh hhigh', stripped_inside_cons hlow hlow']
        rfl
    · exact stripped_inside_cons hquote hbackslash rest

theorem stripped_quoted (text : String) (rest : List Char) :
    stripped .outside (quoted text ++ rest) = quoted text ++ stripped .outside rest := by
  have hinside : ∀ cs : List Char, stripped .inside (cs.flatMap escapeChar ++ '"' :: rest) =
      cs.flatMap escapeChar ++ '"' :: stripped .outside rest := by
    intro cs
    induction cs with
    | nil => rfl
    | cons c cs ih =>
        rw [List.flatMap_cons, List.append_assoc, stripped_escapeChar, ih, List.append_assoc]
  have hopen : ∀ more, quoted text ++ more = '"' :: (text.toList.flatMap escapeChar ++ '"' :: more) := by
    intro more
    simp [quoted]
  rw [hopen, hopen, ← hinside]
  rfl

/-! ### Values -/

theorem stripped_scalar {value : Json} (h : value.shape = .scalar) (depth : ℕ) (after : List Char) :
    stripped .outside (indentedBefore depth value after) =
      compactBefore value (stripped .outside after) := by
  obtain ⟨text, htext⟩ := exists_scalar h
  rw [htext.indentedBefore, htext.compactBefore]
  exact stripped_append (fun c hc => isPlain_of_isScalar (htext.isScalar c hc)) after

mutual

theorem stripped_indentedBefore (depth : ℕ) (value : Json) (after : List Char) :
    stripped .outside (indentedBefore depth value after) =
      compactBefore value (stripped .outside after) := by
  match value with
  | null => exact stripped_scalar rfl depth after
  | nat _ => exact stripped_scalar rfl depth after
  | float _ => exact stripped_scalar rfl depth after
  | string text => exact stripped_quoted text after
  | array [] => rfl
  | array (item :: rest) =>
      rw [indentedBefore, stripped_cons rfl, stripped_newline, stripped_indentedBefore,
        stripped_indentedItems, stripped_newline, stripped_cons rfl, compactBefore, compactItems_cons]
  | object [] => rfl
  | object ((key, value) :: rest) =>
      rw [indentedBefore, stripped_cons rfl, List.append_assoc, stripped_newline, stripped_quoted,
        stripped_cons rfl, stripped_blank, stripped_indentedBefore, stripped_indentedMembers,
        stripped_newline, stripped_cons rfl, compactBefore, compactMembers_cons]

/-- The items after the first, with the commas and the layout between them. -/
theorem stripped_indentedItems (depth : ℕ) (rest : List Json) (after : List Char) :
    stripped .outside (indentedItems depth rest after) = moreItems rest (stripped .outside after) := by
  match rest with
  | [] => rfl
  | item :: rest =>
      rw [indentedItems, stripped_cons rfl, stripped_newline, stripped_indentedBefore,
        stripped_indentedItems, moreItems, compactItems_cons]

theorem stripped_indentedMembers (depth : ℕ) (rest : List (String × Json)) (after : List Char) :
    stripped .outside (indentedMembers depth rest after) = moreMembers rest (stripped .outside after) := by
  match rest with
  | [] => rfl
  | (key, value) :: rest =>
      rw [indentedMembers, stripped_cons rfl, List.append_assoc, stripped_newline, stripped_quoted,
        stripped_cons rfl, stripped_blank, stripped_indentedBefore, stripped_indentedMembers, moreMembers,
        compactMembers_cons]

end

/-- **Without its layout the indented text is the compact one.** -/
theorem stripped_indented (value : Json) :
    stripped .outside value.indented.toList = value.compact.toList := by
  rw [indented, compact, String.toList_ofList, String.toList_ofList, stripped_indentedBefore]
  rfl

end LoopScript.Text.Json
