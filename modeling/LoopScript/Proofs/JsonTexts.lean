import LoopScript.Proofs.NumberTexts

/-! JSON texts and the values that they are written for.

The compact text of a value can be read in one way only: a scalar ends where a character comes that no scalar
has, a string ends at the first quote that is not escaped, and arrays and objects have their brackets and
commas. Nothing is lost but the numbers that are not finite, which are null in the text (`erase`,
`compact_inj`). -/

namespace LoopScript.Text.Json

open Number.Literal (isNumeric)

/-! ### Strings -/

/-- The character at the front of the inside of a string, and what follows it. -/
def unescape? : List Char → Option (Char × List Char)
  | '\\' :: 'b' :: rest => some ('\x08', rest)
  | '\\' :: 'f' :: rest => some ('\x0c', rest)
  | '\\' :: 'n' :: rest => some ('\n', rest)
  | '\\' :: 'r' :: rest => some ('\r', rest)
  | '\\' :: 't' :: rest => some ('\t', rest)
  | '\\' :: 'u' :: '0' :: '0' :: high :: low :: rest =>
      ((List.range 0x20).find? fun code => [hexDigit (code / 16), hexDigit (code % 16)] = [high, low]).map
        fun code => (Char.ofNat code, rest)
  | '\\' :: c :: rest => some (c, rest)
  | c :: rest => some (c, rest)
  | [] => none

theorem unescape?_escapeChar (c : Char) (rest : List Char) :
    unescape? (escapeChar c ++ rest) = some (c, rest) := by
  have hcontrol : ∀ code < 0x20, ((List.range 0x20).find? fun other =>
      [hexDigit (other / 16), hexDigit (other % 16)] = [hexDigit (code / 16), hexDigit (code % 16)]) =
        some code := by
    decide
  unfold escapeChar
  split
  · rfl
  · rfl
  · rfl
  · rfl
  · rfl
  · rfl
  · rfl
  · next hquote hbackslash _ _ _ _ _ =>
      split
      · next hlt =>
          simp only [List.cons_append, List.nil_append, unescape?, hcontrol _ hlt, Option.map_some,
            Char.ofNat_toNat]
      · have hne : c ≠ '\\' := hbackslash
        simp [unescape?, hne]

/-- No character is written with a quote in front. -/
theorem exists_escapeChar (c : Char) : ∃ first rest, escapeChar c = first :: rest ∧ first ≠ '"' := by
  unfold escapeChar
  split
  all_goals try exact ⟨_, _, rfl, by decide⟩
  next hquote _ _ _ _ _ _ =>
    split
    · exact ⟨_, _, rfl, by decide⟩
    · exact ⟨c, [], rfl, hquote⟩

theorem escaped_inj {text text' after after' : List Char}
    (h : text.flatMap escapeChar ++ '"' :: after = text'.flatMap escapeChar ++ '"' :: after') :
    text = text' ∧ after = after' := by
  induction text generalizing text' with
  | nil =>
      cases text' with
      | nil => exact ⟨rfl, (List.cons.inj h).2⟩
      | cons c text' =>
          obtain ⟨first, rest, hchar, hne⟩ := exists_escapeChar c
          rw [List.flatMap_cons, hchar] at h
          exact absurd (List.cons.inj h).1.symm hne
  | cons c text ih =>
      cases text' with
      | nil =>
          obtain ⟨first, rest, hchar, hne⟩ := exists_escapeChar c
          rw [List.flatMap_cons, hchar] at h
          exact absurd (List.cons.inj h).1 hne
      | cons c' text' =>
          have hread := congrArg unescape? h
          rw [List.flatMap_cons, List.flatMap_cons, List.append_assoc, List.append_assoc,
            unescape?_escapeChar, unescape?_escapeChar] at hread
          obtain ⟨rfl, hrest⟩ := Prod.mk.inj (Option.some.inj hread)
          obtain ⟨rfl, hafter⟩ := ih hrest
          exact ⟨rfl, hafter⟩

/-- A string ends at its own closing quote. -/
theorem quoted_inj {text text' : String} {after after' : List Char}
    (h : quoted text ++ after = quoted text' ++ after') : text = text' ∧ after = after' := by
  have hinside : text.toList.flatMap escapeChar ++ '"' :: after =
      text'.toList.flatMap escapeChar ++ '"' :: after' := by
    simpa [quoted] using h
  obtain ⟨htext, hafter⟩ := escaped_inj hinside
  exact ⟨String.toList_injective htext, hafter⟩

/-! ### Scalars -/

/-- The characters of numbers and of null. -/
def isScalar (c : Char) : Bool := isNumeric c || c = 'n' || c = 'u' || c = 'l'

/-- A text at whose front no scalar goes on. -/
def Delimited (after : List Char) : Prop := ∀ c, after.head? = some c → isScalar c = false

theorem span_scalar {text after : List Char} (htext : ∀ c ∈ text, isScalar c = true)
    (hafter : Delimited after) : (text ++ after).span isScalar = (text, after) := by
  rw [List.span_eq_takeWhile_dropWhile, List.takeWhile_append_of_pos htext,
    List.dropWhile_append_of_pos htext]
  cases after with
  | nil => simp
  | cons c after =>
      have hc := hafter c rfl
      simp [hc]

def readScalar (text : List Char) : Json :=
  if text.all Char.isDigit then nat (Nat.ofDigitChars 10 text 0)
  else
    match Number.Literal.value? (String.ofList text) with
    | some value => float value
    | none => null

mutual

/-- A value without what its text does not tell: numbers that are not finite are null there. -/
def erase : Json → Json
  | null => null
  | nat value => nat value
  | float value => if value.isFinite then float value else null
  | string value => string value
  | array items => array (eraseItems items)
  | object members => object (eraseMembers members)

def eraseItems : List Json → List Json
  | [] => []
  | item :: rest => erase item :: eraseItems rest

def eraseMembers : List (String × Json) → List (String × Json)
  | [] => []
  | (key, value) :: rest => (key, erase value) :: eraseMembers rest

end

theorem floatText_of_not_finite {value : Float} (h : value.isFinite = false) :
    floatText value = "null".toList := by
  have hbeyond : Number.Magnitude.infinity ≤ Number.magnitude value := by
    rw [← not_lt, ← Number.isFinite_iff, h]
    exact Bool.false_ne_true
  rw [floatText, if_pos hbeyond]

theorem isNumeric_of_mem_magnitudeText {bits : ℕ} {c : Char} (h : c ∈ magnitudeText bits) :
    isNumeric c = true := by
  rcases Nat.eq_zero_or_pos bits with rfl | hpos
  · have hall : (magnitudeText (0 : ℕ)).all isNumeric = true := by decide
    exact List.all_eq_true.mp hall c h
  · obtain ⟨number, htext, -⟩ := exists_spells_magnitudeText hpos
    exact htext.isNumeric c h

/-- A number that need not be whole has a point or an exponent. -/
theorem exists_mark_magnitudeText (bits : ℕ) : ∃ c ∈ magnitudeText bits, c.isDigit = false := by
  have hfractional : ∀ decimal, '.' ∈ fractional decimal := by
    intro decimal
    rw [fractional]
    split <;> simp
  have hscientific : ∀ decimal, 'e' ∈ scientific decimal := by
    intro decimal
    rw [scientific]
    split <;> simp
  rw [magnitudeText]
  split_ifs
  · exact ⟨'.', by simp, rfl⟩
  · dsimp only
    split
    · exact ⟨'.', hfractional _, rfl⟩
    · exact ⟨'e', hscientific _, rfl⟩

/-- A finite number is read back as such, and not as a whole number. -/
theorem readScalar_floatText {value : Float} (h : value.isFinite = true) :
    readScalar (floatText value) = float value := by
  obtain ⟨c, hc, hdigit⟩ := exists_mark_magnitudeText (Number.magnitude value)
  have hmem : c ∈ floatText value := by
    rw [floatText_of_finite h]
    exact List.mem_append_right _ hc
  have hnot : ¬ (floatText value).all Char.isDigit = true := by
    intro hall
    rw [List.all_eq_true.mp hall c hmem] at hdigit
    cases hdigit
  rw [readScalar, if_neg hnot, value?_floatText h]

theorem readScalar_nat (value : ℕ) : readScalar (Nat.toDigits 10 value) = nat value := by
  have hall : (Nat.toDigits 10 value).all Char.isDigit = true :=
    List.all_eq_true.mpr fun c hc => Nat.isDigit_of_mem_toDigits (by decide) (by decide) hc
  rw [readScalar, if_pos hall, Nat.ofDigitChars_ten_toDigits]

theorem readScalar_null : readScalar "null".toList = null := by
  have hnone : Number.Literal.value? (String.ofList "null".toList) = none := by decide
  rw [readScalar, if_neg (by decide), hnone]

/-- A value without members, and its text. -/
inductive Scalar : Json → List Char → Prop
  | null : Scalar null "null".toList
  | nat (value : ℕ) : Scalar (nat value) (Nat.toDigits 10 value)
  | finite {value : Float} (h : value.isFinite = true) : Scalar (float value) (floatText value)
  | beyond {value : Float} (h : value.isFinite = false) : Scalar (float value) "null".toList

namespace Scalar

variable {value : Json} {text : List Char}

theorem compactBefore (h : Scalar value text) (after : List Char) :
    Json.compactBefore value after = text ++ after := by
  cases h with
  | null | nat | finite => rfl
  | beyond h => rw [Json.compactBefore, floatText_of_not_finite h]

theorem indentedBefore (h : Scalar value text) (depth : ℕ) (after : List Char) :
    Json.indentedBefore depth value after = text ++ after := by
  cases h with
  | null | nat | finite => rfl
  | beyond h => rw [Json.indentedBefore, floatText_of_not_finite h]

theorem readScalar (h : Scalar value text) : readScalar text = erase value := by
  cases h with
  | null => exact readScalar_null
  | nat value => exact readScalar_nat value
  | finite h => rw [readScalar_floatText h, erase, if_pos h]
  | beyond h => rw [readScalar_null, erase, h, if_neg Bool.false_ne_true]

theorem isScalar (h : Scalar value text) : ∀ c ∈ text, isScalar c = true := by
  have hnumeric : ∀ {c}, isNumeric c = true → Json.isScalar c = true := fun h => by simp [Json.isScalar, h]
  cases h with
  | null | beyond => simp [Json.isScalar]
  | nat value =>
      intro c hc
      exact hnumeric (Number.Literal.isNumeric_of_isDigit
        (Nat.isDigit_of_mem_toDigits (by decide) (by decide) hc))
  | finite h =>
      rw [floatText_of_finite h]
      intro c hc
      exact hnumeric ((List.mem_append.mp hc).elim
        (Number.Literal.isNumeric_signText _ c) isNumeric_of_mem_magnitudeText)

theorem ne_nil (h : Scalar value text) : text ≠ [] := by
  cases h with
  | null | beyond => nofun
  | nat value => exact List.ne_nil_of_length_pos Nat.length_toDigits_pos
  | @finite value h =>
      obtain ⟨c, hc, -⟩ := exists_mark_magnitudeText (Number.magnitude value)
      rw [floatText_of_finite h]
      exact List.append_ne_nil_of_right_ne_nil _ (List.ne_nil_of_mem hc)

end Scalar

/-! ### Values -/

/-- The kinds of values that a text tells by its first character. -/
inductive Shape where
  | scalar | string | array | object
deriving DecidableEq

def shape : Json → Shape
  | null | nat _ | float _ => .scalar
  | string _ => .string
  | array _ => .array
  | object _ => .object

/-- The kind of the values that start with a character. -/
def shape? (c : Char) : Option Shape :=
  if isScalar c then some .scalar
  else if c = '"' then some .string
  else if c = '[' then some .array
  else if c = '\x7b' then some .object
  else none

theorem exists_scalar {value : Json} (h : value.shape = .scalar) : ∃ text, Scalar value text := by
  cases value with
  | null => exact ⟨_, .null⟩
  | nat value => exact ⟨_, .nat value⟩
  | float value =>
      cases hfinite : value.isFinite with
      | true => exact ⟨_, .finite hfinite⟩
      | false => exact ⟨_, .beyond hfinite⟩
  | string | array | object => cases h

theorem exists_string {value : Json} (h : .string = value.shape) : ∃ text, value = string text := by
  cases value with
  | string text => exact ⟨text, rfl⟩
  | null | nat | float | array | object => cases h

theorem exists_array {value : Json} (h : .array = value.shape) : ∃ items, value = array items := by
  cases value with
  | array items => exact ⟨items, rfl⟩
  | null | nat | float | string | object => cases h

theorem exists_object {value : Json} (h : .object = value.shape) : ∃ members, value = object members := by
  cases value with
  | object members => exact ⟨members, rfl⟩
  | null | nat | float | string | array => cases h

/-- The first character of a text tells what kind of value it is. -/
theorem head_compactBefore (value : Json) (after : List Char) :
    (compactBefore value after).head?.bind shape? = some value.shape := by
  cases hshape : value.shape with
  | scalar =>
      obtain ⟨text, htext⟩ := exists_scalar hshape
      obtain ⟨c, rest, rfl⟩ := List.exists_cons_of_ne_nil htext.ne_nil
      have hscalar := htext.isScalar c List.mem_cons_self
      rw [htext.compactBefore]
      simp [shape?, hscalar]
  | string =>
      obtain ⟨text, rfl⟩ := exists_string hshape.symm
      rfl
  | array =>
      obtain ⟨items, rfl⟩ := exists_array hshape.symm
      rfl
  | object =>
      obtain ⟨members, rfl⟩ := exists_object hshape.symm
      rfl

theorem shape_eq {value value' : Json} {after after' : List Char}
    (h : compactBefore value after = compactBefore value' after') : value.shape = value'.shape := by
  have hhead := head_compactBefore value after
  rw [h, head_compactBefore] at hhead
  exact (Option.some.inj hhead).symm

/-- What follows an item: the rest of the items after a comma, if there are any. -/
def moreItems (rest : List Json) (after : List Char) : List Char :=
  match rest with
  | [] => after
  | _ :: _ => ',' :: compactItems rest after

def moreMembers (rest : List (String × Json)) (after : List Char) : List Char :=
  match rest with
  | [] => after
  | _ :: _ => ',' :: compactMembers rest after

theorem compactItems_cons (item : Json) (rest : List Json) (after : List Char) :
    compactItems (item :: rest) after = compactBefore item (moreItems rest after) := by
  cases rest <;> rfl

theorem compactMembers_cons (key : String) (value : Json) (rest : List (String × Json)) (after : List Char) :
    compactMembers ((key, value) :: rest) after =
      quoted key ++ ':' :: compactBefore value (moreMembers rest after) := by
  cases rest <;> rfl

theorem delimited_cons {c : Char} (h : isScalar c = false) (after : List Char) : Delimited (c :: after) := by
  intro first hfirst
  obtain rfl := Option.some.inj hfirst
  exact h

theorem delimited_moreItems (rest : List Json) (after : List Char) :
    Delimited (moreItems rest (']' :: after)) := by
  cases rest <;> exact delimited_cons rfl _

theorem delimited_moreMembers (rest : List (String × Json)) (after : List Char) :
    Delimited (moreMembers rest ('\x7d' :: after)) := by
  cases rest <;> exact delimited_cons rfl _

theorem scalar_inj {value value' : Json} {after after' : List Char} (hvalue : value.shape = .scalar)
    (hafter : Delimited after) (hafter' : Delimited after')
    (h : compactBefore value after = compactBefore value' after') :
    erase value = erase value' ∧ after = after' := by
  obtain ⟨text, htext⟩ := exists_scalar hvalue
  obtain ⟨text', htext'⟩ := exists_scalar ((shape_eq h).symm.trans hvalue)
  rw [htext.compactBefore, htext'.compactBefore] at h
  have hspan := congrArg (List.span isScalar) h
  rw [span_scalar htext.isScalar hafter, span_scalar htext'.isScalar hafter'] at hspan
  obtain ⟨rfl, rfl⟩ := Prod.mk.inj hspan
  exact ⟨htext.readScalar.symm.trans htext'.readScalar, rfl⟩

/-- No value starts with a bracket that closes. -/
theorem closing_ne {c : Char} (hc : shape? c = none) {text after : List Char} {value : Json} :
    c :: text ≠ compactBefore value after := by
  intro h
  have hhead := head_compactBefore value after
  rw [← h] at hhead
  simp [hc] at hhead

mutual

/-- A text is read in one way only. -/
theorem compactBefore_inj (value value' : Json) {after after' : List Char} (hafter : Delimited after)
    (hafter' : Delimited after') (h : compactBefore value after = compactBefore value' after') :
    erase value = erase value' ∧ after = after' := by
  match value with
  | null => exact scalar_inj rfl hafter hafter' h
  | nat _ => exact scalar_inj rfl hafter hafter' h
  | float _ => exact scalar_inj rfl hafter hafter' h
  | string text =>
      obtain ⟨text', rfl⟩ := exists_string (shape_eq h)
      obtain ⟨rfl, hrest⟩ := quoted_inj h
      exact ⟨rfl, hrest⟩
  | array items =>
      obtain ⟨items', rfl⟩ := exists_array (shape_eq h)
      obtain ⟨hitems, hrest⟩ := compactItems_inj items items' (List.cons.inj h).2
      exact ⟨congrArg array hitems, hrest⟩
  | object members =>
      obtain ⟨members', rfl⟩ := exists_object (shape_eq h)
      obtain ⟨hmembers, hrest⟩ := compactMembers_inj members members' (List.cons.inj h).2
      exact ⟨congrArg object hmembers, hrest⟩

theorem compactItems_inj (items items' : List Json) {after after' : List Char}
    (h : compactItems items (']' :: after) = compactItems items' (']' :: after')) :
    eraseItems items = eraseItems items' ∧ after = after' := by
  match items, items' with
  | [], [] => exact ⟨rfl, (List.cons.inj h).2⟩
  | [], item' :: rest' =>
      rw [compactItems_cons] at h
      exact absurd h (closing_ne rfl)
  | item :: rest, [] =>
      rw [compactItems_cons] at h
      exact absurd h.symm (closing_ne rfl)
  | item :: rest, item' :: rest' =>
      rw [compactItems_cons, compactItems_cons] at h
      obtain ⟨hitem, hmore⟩ := compactBefore_inj item item' (delimited_moreItems rest after)
        (delimited_moreItems rest' after') h
      rw [eraseItems, eraseItems, hitem]
      match rest, rest' with
      | [], [] => exact ⟨rfl, (List.cons.inj hmore).2⟩
      | [], _ :: _ => cases hmore
      | _ :: _, [] => cases hmore
      | next :: rest, next' :: rest' =>
          obtain ⟨hrest, hafter⟩ := compactItems_inj (next :: rest) (next' :: rest') (List.cons.inj hmore).2
          exact ⟨congrArg (_ :: ·) hrest, hafter⟩

theorem compactMembers_inj (members members' : List (String × Json)) {after after' : List Char}
    (h : compactMembers members ('\x7d' :: after) = compactMembers members' ('\x7d' :: after')) :
    eraseMembers members = eraseMembers members' ∧ after = after' := by
  match members, members' with
  | [], [] => exact ⟨rfl, (List.cons.inj h).2⟩
  | [], (key', value') :: rest' =>
      rw [compactMembers_cons] at h
      cases (List.cons.inj h).1
  | (key, value) :: rest, [] =>
      rw [compactMembers_cons] at h
      cases (List.cons.inj h).1
  | (key, value) :: rest, (key', value') :: rest' =>
      rw [compactMembers_cons, compactMembers_cons] at h
      obtain ⟨rfl, hbehind⟩ := quoted_inj h
      obtain ⟨hvalue, hmore⟩ := compactBefore_inj value value' (delimited_moreMembers rest after)
        (delimited_moreMembers rest' after') (List.cons.inj hbehind).2
      rw [eraseMembers, eraseMembers, hvalue]
      match rest, rest' with
      | [], [] => exact ⟨rfl, (List.cons.inj hmore).2⟩
      | [], _ :: _ => cases hmore
      | _ :: _, [] => cases hmore
      | next :: rest, next' :: rest' =>
          obtain ⟨hrest, hafter⟩ :=
            compactMembers_inj (next :: rest) (next' :: rest') (List.cons.inj hmore).2
          exact ⟨congrArg (_ :: ·) hrest, hafter⟩

end

/-- **The compact text tells everything but which numbers are not finite.** -/
theorem compact_inj {value value' : Json} (h : value.compact = value'.compact) :
    erase value = erase value' := by
  have hend : Delimited [] := nofun
  exact (compactBefore_inj value value' hend hend (String.ofList_injective h)).1

end LoopScript.Text.Json
