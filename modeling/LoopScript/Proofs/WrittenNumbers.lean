import LoopScript.Number.Literal
import LoopScript.Text.Json
import Mathlib.Data.Int.Notation
import Mathlib.Data.List.TakeWhile
import Mathlib.Data.Nat.Notation

/-! Numbers that are written with digits: a whole part, perhaps a fraction, perhaps a power of ten, and
perhaps a minus sign in front of it all (`Literal.written`). They are read as the decimal that they are
(`Literal.value?_written`); in particular none is taken for infinity or for what is not a number. -/

namespace LoopScript

open Text (Json)

namespace Number.Literal

/-- A whole part, a fraction behind a point unless it is empty, and what follows. -/
def written (whole fraction power : List Char) : List Char :=
  match fraction with
  | [] => whole ++ power
  | first :: rest => whole ++ '.' :: first :: rest ++ power

/-- The text of a power of ten: none, or a mark, a sign and digits. -/
inductive IsPower : List Char → ℤ → Prop
  | absent : IsPower [] 0
  | mark (exponent : ℤ) :
      IsPower ('e' :: Json.exponentSign exponent :: Nat.toDigits 10 exponent.natAbs) exponent

def signText (negative : Bool) : List Char := if negative then ['-'] else []

/-! ### The characters -/

/-- The characters of numbers that are spelled with digits. -/
def isNumeric (c : Char) : Bool := c.isDigit || c = '.' || c = 'e' || c = '+' || c = '-'

theorem isNumeric_of_isDigit {c : Char} (h : c.isDigit = true) : isNumeric c = true := by
  simp [isNumeric, h]

theorem IsPower.isNumeric {power : List Char} {exponent : ℤ} (h : IsPower power exponent) :
    ∀ c ∈ power, isNumeric c = true := by
  cases h with
  | absent => nofun
  | mark =>
      have hsign : Literal.isNumeric (Json.exponentSign exponent) = true := by
        rw [Json.exponentSign]
        split <;> rfl
      refine List.forall_mem_cons.mpr ⟨rfl, List.forall_mem_cons.mpr ⟨hsign, fun c hc => ?_⟩⟩
      exact isNumeric_of_isDigit (Nat.isDigit_of_mem_toDigits (by decide) (by decide) hc)

theorem isNumeric_signText (negative : Bool) : ∀ c ∈ signText negative, isNumeric c = true := by
  cases negative <;> simp [signText, isNumeric]

/-! ### The value -/

theorem IsPower.exponent? {power : List Char} {exponent : ℤ} (h : IsPower power exponent) :
    exponent? power = some exponent := by
  cases h with
  | absent => rfl
  | mark =>
      have hne : Nat.toDigits 10 exponent.natAbs ≠ [] := List.ne_nil_of_length_pos Nat.length_toDigits_pos
      have hall : (Nat.toDigits 10 exponent.natAbs).all Char.isDigit = true :=
        List.all_eq_true.mpr fun c hc => Nat.isDigit_of_mem_toDigits (by decide) (by decide) hc
      have hdigits : digits? (Nat.toDigits 10 exponent.natAbs) = some exponent.natAbs := by
        rw [digits?, if_pos (by simp [hne, hall]), Nat.ofDigitChars_ten_toDigits]
      rw [Literal.exponent?, if_pos (by decide), Json.exponentSign]
      split_ifs with hnegative
      · have hvalue : -(exponent.natAbs : ℤ) = exponent := by omega
        simp only [sign, hdigits]
        exact congrArg some hvalue
      · have hvalue : (exponent.natAbs : ℤ) = exponent := by omega
        simp only [sign, hdigits]
        exact congrArg some hvalue

/-- What follows the digits is not read on as digits. -/
theorem IsPower.span {power digits : List Char} {exponent : ℤ} (h : IsPower power exponent)
    (hdigits : ∀ c ∈ digits, c.isDigit = true) :
    (digits ++ power).takeWhile Char.isDigit = digits ∧ (digits ++ power).dropWhile Char.isDigit = power := by
  rw [List.takeWhile_append_of_pos hdigits, List.dropWhile_append_of_pos hdigits]
  cases h with
  | absent => exact ⟨List.append_nil _, rfl⟩
  | mark => exact ⟨List.append_nil _, rfl⟩

/-- A written number is read as its digits, with the power of ten lowered by the length of the fraction. -/
theorem decimal?_written {whole fraction power : List Char} {exponent : ℤ} (hne : whole ≠ [])
    (hdigits : ∀ c ∈ whole ++ fraction, c.isDigit = true) (hpower : IsPower power exponent) :
    decimal? (written whole fraction power) =
      some ⟨Nat.ofDigitChars 10 (whole ++ fraction) 0, exponent - fraction.length⟩ := by
  obtain ⟨hwhole, hfraction⟩ := List.forall_mem_append.mp hdigits
  have hempty : whole.isEmpty = false := by simpa using hne
  cases fraction with
  | nil =>
      obtain ⟨htake, hdrop⟩ := hpower.span hwhole
      have hnone : Literal.fraction power = ([], power) := by
        cases hpower <;> rfl
      simp [decimal?, written, htake, hdrop, hnone, hempty, hpower.exponent?]
  | cons first rest =>
      obtain ⟨htake, hdrop⟩ := hpower.span hfraction
      have hpoint : (whole ++ '.' :: first :: rest ++ power).takeWhile Char.isDigit = whole ∧
          (whole ++ '.' :: first :: rest ++ power).dropWhile Char.isDigit =
            '.' :: (first :: rest ++ power) := by
        rw [List.append_assoc, List.takeWhile_append_of_pos hwhole, List.dropWhile_append_of_pos hwhole]
        exact ⟨List.append_nil _, rfl⟩
      simp only [decimal?, written, hpoint.1, hpoint.2, Literal.fraction, htake, hdrop, hempty,
        hpower.exponent?, Bool.false_and, Bool.false_eq_true, if_false, Option.map_some]

theorem toLower_of_isDigit {c : Char} (h : c.isDigit = true) : c.toLower = c := by
  simp only [Char.isDigit, Bool.and_eq_true, decide_eq_true_eq] at h
  refine dif_neg ?_
  rintro ⟨hupper, -⟩
  have hlt : '9'.val < 'A'.val := by decide
  exact UInt32.lt_irrefl _ (UInt32.lt_of_le_of_lt hupper (UInt32.lt_of_le_of_lt h.2 hlt))

/-- A text with a digit behind its sign, if any, is none of the words for numbers. -/
theorem value?_of_decimal {text : String} {negative : Bool} {c : Char} {rest : List Char} {decimal : Decimal}
    (hsign : sign text.toList = (negative, c :: rest)) (hdigit : c.isDigit = true)
    (h : decimal? (c :: rest) = some decimal) :
    value? text = some (ofMagnitude negative decimal.toMagnitude) := by
  have hword : ∀ (first : Char) (word : List Char), first.isDigit = false →
      String.ofList ((c :: rest).map Char.toLower) ≠ String.ofList (first :: word) := by
    intro first word hfirst heq
    have hhead := (List.cons.inj (String.ofList_injective heq)).1
    rw [toLower_of_isDigit hdigit] at hhead
    rw [hhead, hfirst] at hdigit
    cases hdigit
  simp only [value?, hsign]
  split
  · next heq => exact absurd heq (hword 'i' ['n', 'f'] rfl)
  · next heq => exact absurd heq (hword 'i' ['n', 'f', 'i', 'n', 'i', 't', 'y'] rfl)
  · next heq => exact absurd heq (hword 'n' ['a', 'n'] rfl)
  · rw [h, Option.map_some]

/-- The sign of a text that starts with a digit behind its sign, if any. -/
theorem sign_signText {negative : Bool} {c : Char} {rest : List Char} (hdigit : c.isDigit = true) :
    sign (signText negative ++ c :: rest) = (negative, c :: rest) := by
  cases negative with
  | true => rfl
  | false =>
      have hplus : c ≠ '+' := by
        rintro rfl
        cases hdigit
      have hminus : c ≠ '-' := by
        rintro rfl
        cases hdigit
      simp [signText, sign, hplus, hminus]

/-- The number that is read from a sign, digits and perhaps a power of ten. -/
theorem value?_written (negative : Bool) {whole fraction power : List Char} {exponent : ℤ}
    (hne : whole ≠ []) (hdigits : ∀ c ∈ whole ++ fraction, c.isDigit = true)
    (hpower : IsPower power exponent) :
    value? (String.ofList (signText negative ++ written whole fraction power)) = some (ofMagnitude negative
      (Decimal.toMagnitude ⟨Nat.ofDigitChars 10 (whole ++ fraction) 0, exponent - fraction.length⟩)) := by
  have hdecimal := decimal?_written hne hdigits hpower
  obtain ⟨c, whole, rfl⟩ := List.exists_cons_of_ne_nil hne
  have hdigit : c.isDigit = true := hdigits c List.mem_cons_self
  obtain ⟨rest, hrest⟩ : ∃ rest, written (c :: whole) fraction power = c :: rest := by
    cases fraction <;> exact ⟨_, rfl⟩
  have hsign : sign (String.ofList (signText negative ++ c :: rest)).toList = (negative, c :: rest) := by
    rw [String.toList_ofList]
    exact sign_signText hdigit
  rw [hrest] at hdecimal ⊢
  exact value?_of_decimal hsign hdigit hdecimal

end Number.Literal

end LoopScript
