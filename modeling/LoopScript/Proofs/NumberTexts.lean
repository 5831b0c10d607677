import LoopScript.Proofs.ShortestDecimals
import LoopScript.Proofs.WrittenNumbers

/-! Texts of numbers. A text spells the number that its digits and its power of ten stand for
(`Literal.Spells`). A text that spells a point of the interval of a magnitude is read as that magnitude,
behind either sign (`Literal.Spells.value?`). Both ways to write a decimal spell it, and the decimals that
are written are in the interval: so what is printed is read back (`value?_plain`), and so is a number in a
JSON text (`Json.value?_floatText`). -/

namespace LoopScript

open Text (Json)

namespace Number

/-! ### Signs and bits -/

/-- A number is its sign and its magnitude. -/
theorem ofMagnitude_magnitude (value : Float) :
    ofMagnitude (isNegative value) (magnitude value) = value := by
  have hlt : value.toBits.toNat < 2 ^ 64 := value.toBits.toNat_lt
  have hmagnitude : magnitude value = value.toBits.toNat % 2 ^ 63 := rfl
  have hsmall : (UInt64.ofNat (magnitude value)).toNat = value.toBits.toNat % 2 ^ 63 := by
    rw [UInt64.toNat_ofNat', hmagnitude]
    omega
  have hbits : (if isNegative value then signBit ||| UInt64.ofNat (magnitude value)
      else UInt64.ofNat (magnitude value)) = value.toBits := by
    apply UInt64.toNat_inj.mp
    split
    · next h =>
        have hle : 2 ^ 63 ≤ value.toBits.toNat := of_decide_eq_true h
        have hsign : signBit.toNat = 2 ^ 63 * 1 := rfl
        rw [UInt64.toNat_or, hsmall, hsign, ← Nat.two_pow_add_eq_or_of_lt (Nat.mod_lt _ (by decide))]
        omega
    · next h =>
        have hnot : ¬ 2 ^ 63 ≤ value.toBits.toNat := fun hle => h (decide_eq_true hle)
        rw [hsmall]
        omega
  rw [ofMagnitude, hbits, Float.ofBits_toBits]

theorem isNaN_notANumber : notANumber.isNaN = true := rfl

/-- The exponent has no zero bit from infinity on. -/
theorem unpackExponent_eq_iff (bits : UInt64) :
    (Float.Model.UnpackedFloat.unpackExponent bits.toBitVec :
        BitVec Float.Model.Format.binary64.exponentBits) = -1#11 ↔
      Magnitude.infinity ≤ bits.toNat % 2 ^ 63 := by
  have hbits : bits.toBitVec.toNat = bits.toNat := rfl
  have hinfinity : Magnitude.infinity ≤ bits.toNat % 2 ^ 63 ↔ 2047 * 2 ^ 52 ≤ bits.toNat % 2 ^ 63 := Iff.rfl
  have hexponent : bits.toNat / 2 ^ 52 % 2 ^ 11 = 2047 ↔ 2047 * 2 ^ 52 ≤ bits.toNat % 2 ^ 63 := by
    omega
  rw [hinfinity, ← hexponent, ← hbits, ← Nat.shiftRight_eq_div_pow, ← BitVec.extractLsb'_toNat,
    ← BitVec.toNat_inj]
  rfl

/-- The bits of what is not a number have the greatest exponent and a fraction. -/
theorem isNaNBits_iff (bits : UInt64) :
    @Float.Model.UnpackedFloat.isNaNBits Float.Model.Format.binary64 bits.toBitVec = true ↔
      Magnitude.infinity < bits.toNat % 2 ^ 63 := by
  have hbits : bits.toBitVec.toNat = bits.toNat := rfl
  have hfraction : (Float.Model.UnpackedFloat.unpackMantissa bits.toBitVec :
      BitVec Float.Model.Format.binary64.mantissaBitsWithoutImplicit) = 0#52 ↔
        bits.toNat % 2 ^ 52 = 0 := by
    rw [Float.Model.UnpackedFloat.unpackMantissa_def, ← BitVec.toNat_inj, BitVec.extractLsb'_toNat, hbits,
      Nat.shiftRight_zero]
    rfl
  have hcases : 2047 * 2 ^ 52 ≤ bits.toNat % 2 ^ 63 ∧ ¬ bits.toNat % 2 ^ 52 = 0 ↔
      2047 * 2 ^ 52 < bits.toNat % 2 ^ 63 := by
    omega
  refine decide_eq_true_iff.trans (Iff.trans ?_ hcases)
  exact and_congr (unpackExponent_eq_iff bits) (not_congr hfraction)

theorem isNaN_iff (value : Float) : value.isNaN = true ↔ Magnitude.infinity < magnitude value := by
  rw [Float.isNaN_eq_decide_eq_nan, decide_eq_true_iff]
  constructor
  · rintro rfl
    decide +kernel
  · intro h
    obtain ⟨hexponent, hfraction⟩ := of_decide_eq_true ((isNaNBits_iff value.toBits).mpr h)
    have hvalid : Float.Model.Format.binary64.Valid value.toBits.toBitVec := value.toModel.valid
    exact Float.toBits_inj.mp (UInt64.toBitVec_inj.mp (hvalid.eq_packedNaN hexponent hfraction))

/-- Bits are kept by the number that they are made into, unless it is none. -/
theorem toBits_ofBits (bits : UInt64) :
    (Float.ofBits bits).toBits =
      if Magnitude.infinity < bits.toNat % 2 ^ 63 then Float.nan.toBits else bits := by
  have hpacked : (Float.ofBits bits).toBits.toBitVec =
      Float.Model.UnpackedFloat.pack Float.Model.Format.binary64
        (Float.Model.UnpackedFloat.unpack Float.Model.Format.binary64 bits.toBitVec) := rfl
  rw [Float.Model.UnpackedFloat.pack_unpack] at hpacked
  apply UInt64.toBitVec_inj.mp
  rw [hpacked]
  split_ifs with hnan hbeyond hbeyond
  · rfl
  · exact absurd ((isNaNBits_iff bits).mp hnan) hbeyond
  · exact absurd ((isNaNBits_iff bits).mpr hbeyond) hnan
  · rfl

theorem isFinite_iff (value : Float) :
    value.isFinite = true ↔ magnitude value < Magnitude.infinity := by
  have hmagnitude : magnitude value < Magnitude.infinity ↔
      ¬ Magnitude.infinity ≤ value.toBits.toNat % 2 ^ 63 := not_le.symm
  rw [hmagnitude, ← unpackExponent_eq_iff]
  change (Float.Model.UnpackedFloat.unpack Float.Model.Format.binary64
    value.toBits.toBitVec).isFinite = true ↔ _
  rw [Float.Model.UnpackedFloat.unpack]
  dsimp only
  split_ifs with hexponent hmantissa hzero hmantissa
  · exact iff_of_false nofun (not_not.mpr hexponent)
  · exact iff_of_false nofun (not_not.mpr hexponent)
  · exact iff_of_true rfl hexponent
  · exact iff_of_true rfl hexponent
  · exact iff_of_true rfl hexponent

/-! ### Digits of decimals -/

namespace Decimal

theorem isDigit_of_mem_digitChars {decimal : Decimal} {c : Char} (h : c ∈ decimal.digitChars) :
    c.isDigit = true :=
  Nat.isDigit_of_mem_toDigits (by decide) (by decide) h

theorem ofDigitChars_digitChars (decimal : Decimal) :
    Nat.ofDigitChars 10 decimal.digitChars 0 = decimal.digits :=
  Nat.ofDigitChars_ten_toDigits

theorem digitChars_ne_nil (decimal : Decimal) : decimal.digitChars ≠ [] :=
  List.ne_nil_of_length_pos Nat.length_toDigits_pos

theorem positional_ne_nil (decimal : Decimal) : decimal.positional.1 ≠ [] := by
  unfold positional
  dsimp only
  split_ifs with hwhole hplaces
  · exact List.append_ne_nil_of_left_ne_nil decimal.digitChars_ne_nil _
  · refine List.ne_nil_of_length_pos ?_
    rw [List.length_take]
    omega
  · exact List.cons_ne_nil _ _

theorem isDigit_of_mem_positional {decimal : Decimal} {c : Char}
    (h : c ∈ decimal.positional.1 ++ decimal.positional.2) : c.isDigit = true := by
  have hzero : ∀ {count : ℕ}, c ∈ List.replicate count '0' → c.isDigit = true := by
    intro count hmem
    rw [List.eq_of_mem_replicate hmem]
    rfl
  unfold positional at h
  dsimp only at h
  split_ifs at h with hwhole hplaces
  · rw [List.append_nil] at h
    exact (List.mem_append.mp h).elim isDigit_of_mem_digitChars hzero
  · rw [List.take_append_drop] at h
    exact isDigit_of_mem_digitChars h
  · rw [List.singleton_append] at h
    rcases List.mem_cons.mp h with rfl | h
    · rfl
    · exact (List.mem_append.mp h).elim hzero isDigit_of_mem_digitChars

/-- The digits of the two parts are those of the decimal, with its point where the fraction begins. -/
theorem value_positional (decimal : Decimal) :
    value ⟨Nat.ofDigitChars 10 (decimal.positional.1 ++ decimal.positional.2) 0,
      0 - decimal.positional.2.length⟩ = decimal.value := by
  have hdigits := decimal.ofDigitChars_digitChars
  unfold positional
  dsimp only
  split_ifs with hwhole hplaces
  · obtain ⟨zeros, hzeros⟩ := Int.eq_ofNat_of_zero_le hwhole
    simp only [List.append_nil, Nat.ofDigitChars_append, hdigits, Nat.ofDigitChars_replicate_zero, value,
      hzeros, List.length_nil]
    simp [mul_comm]
  · have hlength : (0 : ℤ) - (decimal.digitChars.length -
        (decimal.digitChars.length - (-decimal.exponent).toNat) : ℕ) = decimal.exponent := by omega
    rw [List.take_append_drop, hdigits, List.length_drop, hlength]
  · have hlength : (0 : ℤ) - ((-decimal.exponent).toNat - decimal.digitChars.length +
        decimal.digitChars.length : ℕ) = decimal.exponent := by omega
    rw [List.length_append, List.length_replicate, hlength]
    simp [Nat.ofDigitChars_cons, Nat.ofDigitChars_append, hdigits]

end Decimal

/-! ### Reading a text -/

namespace Literal

/-- A text spells a number with digits, perhaps a fraction, and perhaps a power of ten. -/
inductive Spells : List Char → ℚ → Prop
  | intro {whole fraction power : List Char} {exponent : ℤ} (nonempty : whole ≠ [])
      (isDigit : ∀ c ∈ whole ++ fraction, c.isDigit = true) (isPower : IsPower power exponent) :
      Spells (written whole fraction power)
        (Decimal.value ⟨Nat.ofDigitChars 10 (whole ++ fraction) 0, exponent - fraction.length⟩)

theorem Spells.isNumeric {text : List Char} {number : ℚ} (h : Spells text number) :
    ∀ c ∈ text, isNumeric c = true := by
  obtain @⟨whole, fraction, power, exponent, hne, hdigits, hpower⟩ := h
  obtain ⟨hwhole, hfraction⟩ := List.forall_mem_append.mp fun c hc => isNumeric_of_isDigit (hdigits c hc)
  cases fraction with
  | nil => exact List.forall_mem_append.mpr ⟨hwhole, hpower.isNumeric⟩
  | cons first rest =>
      refine List.forall_mem_append.mpr ⟨List.forall_mem_append.mpr ⟨hwhole, ?_⟩, hpower.isNumeric⟩
      exact List.forall_mem_cons.mpr ⟨rfl, hfraction⟩

/-- **A text that spells a point of the interval of a magnitude is read as that magnitude.** -/
theorem Spells.value? {text : List Char} {number : ℚ} {bits : ℕ} (h : Spells text number) (negative : Bool)
    (hpos : 0 < bits) (hfinite : bits < Magnitude.infinity)
    (hholds : (Interval.ofMagnitude bits).Holds number) :
    Literal.value? (String.ofList (signText negative ++ text)) = some (ofMagnitude negative bits) := by
  obtain @⟨whole, fraction, power, exponent, hne, hdigits, hpower⟩ := h
  rw [value?_written negative hne hdigits hpower, Decimal.toMagnitude_eq hpos hfinite hholds]

end Literal

/-! ### Writing a decimal -/

open Literal (Spells written IsPower signText)

theorem spells_plainText (decimal : Decimal) : Spells (plainText decimal).toList decimal.value := by
  have htext : (plainText decimal).toList = written decimal.positional.1 decimal.positional.2 [] := by
    rw [plainText]
    split
    · next whole heq => simp [heq, written]
    · next whole fraction hne heq =>
        obtain ⟨first, rest, rfl⟩ := List.exists_cons_of_ne_nil hne
        simp [heq, written]
  rw [htext, ← decimal.value_positional]
  exact .intro decimal.positional_ne_nil (fun _ => Decimal.isDigit_of_mem_positional) .absent

theorem spells_fractional (decimal : Decimal) : Spells (Json.fractional decimal) decimal.value := by
  have hvalue := decimal.value_positional
  have hne := decimal.positional_ne_nil
  have hdigits : ∀ c ∈ decimal.positional.1 ++ decimal.positional.2, c.isDigit = true :=
    fun _ => Decimal.isDigit_of_mem_positional
  rw [Json.fractional]
  split
  · next whole heq =>
      rw [heq] at hvalue hne hdigits
      have htext : whole ++ ['.', '0'] = written whole ['0'] [] := (List.append_nil _).symm
      have hzero : ∀ c ∈ whole ++ ['0'], c.isDigit = true := by
        simpa [or_imp, forall_and] using hdigits
      have htenth : Decimal.value ⟨Nat.ofDigitChars 10 (whole ++ ['0']) 0, 0 - (['0'].length : ℕ)⟩ =
          decimal.value := by
        rw [← hvalue]
        simp [Decimal.value, Nat.ofDigitChars_append, Nat.ofDigitChars_cons]
        ring
      rw [htext, ← htenth]
      exact .intro hne hzero .absent
  · next whole fraction hnil heq =>
      rw [heq] at hvalue hne hdigits
      obtain ⟨first, rest, rfl⟩ := List.exists_cons_of_ne_nil hnil
      have htext : whole ++ '.' :: first :: rest = written whole (first :: rest) [] :=
        (List.append_nil _).symm
      rw [htext, ← hvalue]
      exact .intro hne hdigits .absent

/-- A decimal with an exponent has its point behind the first digit. -/
theorem spells_scientific (decimal : Decimal) : Spells (Json.scientific decimal) decimal.value := by
  have hdigits := decimal.ofDigitChars_digitChars
  have hall : ∀ c ∈ decimal.digitChars, c.isDigit = true := fun _ => Decimal.isDigit_of_mem_digitChars
  have hpower := IsPower.mark decimal.leadingExponent
  obtain ⟨first, rest, hchars⟩ := List.exists_cons_of_ne_nil decimal.digitChars_ne_nil
  have hvalue : Decimal.value ⟨Nat.ofDigitChars 10 ([first] ++ rest) 0,
      decimal.leadingExponent - rest.length⟩ = decimal.value := by
    have hexponent : decimal.leadingExponent - rest.length = decimal.exponent := by
      rw [Decimal.leadingExponent, hchars, List.length_cons]
      push_cast
      ring
    rw [hexponent, List.singleton_append, ← hchars, hdigits]
  have htext : Json.scientific decimal = written [first] rest
      ('e' :: Json.exponentSign decimal.leadingExponent ::
        Nat.toDigits 10 decimal.leadingExponent.natAbs) := by
    rw [Json.scientific, hchars]
    cases rest <;> rfl
  rw [htext, ← hvalue]
  rw [hchars] at hall
  exact .intro (List.cons_ne_nil _ _) hall hpower

/-! ### Reading back -/

theorem toList_withSign (negative : Bool) (text : String) :
    (withSign negative text).toList = signText negative ++ text.toList := by
  cases negative with
  | true => rw [withSign, if_pos rfl, String.toList_append]; rfl
  | false => rfl

/-- What a printed number is read as: both zeros as the positive one, and every number that is none as the
same one. -/
def reread (value : Float) : Float :=
  if magnitude value = 0 then ofMagnitude false 0
  else if Magnitude.infinity < magnitude value then notANumber
  else value

/-- **A printed number is read back.** -/
theorem value?_plain (value : Float) : Literal.value? (plain value) = some (reread value) := by
  have hsigned := ofMagnitude_magnitude value
  rw [plain, reread]
  split_ifs with hzero hnan hinfinite
  · rfl
  · rfl
  · rw [hinfinite] at hsigned
    rw [← hsigned]
    cases isNegative value <;> rfl
  · have hpos : 0 < (magnitude value : ℕ) := Nat.pos_of_ne_zero hzero
    have hfinite : (magnitude value : ℕ) < Magnitude.infinity :=
      lt_of_le_of_ne (Nat.le_of_not_lt hnan) hinfinite
    have htext := spells_plainText (shortest .up (magnitude value))
    have hread := htext.value? (isNegative value) hpos hfinite (holds_shortest .up hpos)
    rwa [← toList_withSign, String.ofList_toList, hsigned] at hread

/-- The number nearest to a tenth is printed as a tenth. -/
example : plain (Float.ofBits 0x3fb999999999999a) = "0.1" := by decide +kernel

end Number

namespace Text.Json

open Number (Magnitude Interval magnitude isNegative ofMagnitude shortest)
open Number.Literal (Spells signText)

/-- A number in a JSON text is spelled as a decimal in its interval. -/
theorem exists_spells_magnitudeText {bits : ℕ} (hpos : 0 < bits) :
    ∃ number, Spells (magnitudeText bits) number ∧ (Interval.ofMagnitude bits).Holds number := by
  have hne : (bits : Magnitude) ≠ (0 : ℕ) := hpos.ne'
  refine ⟨_, ?_, Number.holds_shortest .even hpos⟩
  rw [magnitudeText, if_neg hne]
  dsimp only
  split
  · exact Number.spells_fractional _
  · exact Number.spells_scientific _

theorem floatText_of_finite {value : Float} (h : value.isFinite = true) :
    floatText value = signText (isNegative value) ++ magnitudeText (magnitude value) := by
  have hfinite : ¬ Magnitude.infinity ≤ magnitude value := not_le.mpr ((Number.isFinite_iff value).mp h)
  rw [floatText]
  rw [if_neg hfinite]
  cases isNegative value <;> rfl

/-- **A finite number in a JSON text is read back.** -/
theorem value?_floatText {value : Float} (h : value.isFinite = true) :
    Number.Literal.value? (String.ofList (floatText value)) = some value := by
  have hsigned := Number.ofMagnitude_magnitude value
  rw [floatText_of_finite h]
  rcases Nat.eq_zero_or_pos (magnitude value) with hzero | hpos
  · rw [hzero] at hsigned ⊢
    rw [← hsigned]
    cases isNegative value <;> rfl
  · obtain ⟨number, htext, hholds⟩ := exists_spells_magnitudeText hpos
    rw [htext.value? _ hpos ((Number.isFinite_iff value).mp h) hholds, hsigned]

end Text.Json

end LoopScript
