import LoopScript.Number.Shortest
import Mathlib

/-! Rounding to magnitudes. A quotient in the interval of a finite magnitude is rounded to that magnitude,
whichever two numbers it is written with (`ofQuotient_eq`). For this the exponent of a quotient is found
exactly from those of its two numbers, and the halves are decided exactly. The one case that is not plain is
a quotient just below a power of two: it is rounded with the exponent below, where the significand comes out
as the next power of two and is carried into the exponent. -/

namespace LoopScript.Number

/-! ### Powers of two and of ten -/

/-- A power is a quotient of two natural ones, of which one is 1. -/
theorem zpow_eq_toNat_div (base : ℚ) (power : ℤ) :
    base ^ power = base ^ power.toNat / base ^ (-power).toNat := by
  rcases le_total 0 power with h | h
  · obtain ⟨n, rfl⟩ := Int.eq_ofNat_of_zero_le h
    simp
  · obtain ⟨n, hn⟩ := Int.eq_ofNat_of_zero_le (Int.neg_nonneg_of_nonpos h)
    obtain rfl : power = -(n : ℤ) := by omega
    simp [zpow_neg]

/-! ### Halves -/

/-- A quotient that is within a half of a whole number is rounded to it, and so is one that is a half away
if the whole number is even. -/
theorem roundHalfEven_eq {num den whole : ℕ} (hden : 0 < den)
    (hlow : (whole : ℚ) - 1 / 2 ≤ num / den) (hhigh : (num : ℚ) / den ≤ whole + 1 / 2)
    (hodd : whole % 2 = 1 → (whole : ℚ) - 1 / 2 < num / den ∧ (num : ℚ) / den < whole + 1 / 2) :
    roundHalfEven num den = whole := by
  have hden' : (0 : ℚ) < den := by exact_mod_cast hden
  have hlow' : 2 * (whole * den) ≤ 2 * num + den := by
    rw [le_div_iff₀ hden'] at hlow
    have hscaled : (2 * (whole * den) : ℚ) ≤ 2 * num + den := by linarith
    exact_mod_cast hscaled
  have hhigh' : 2 * num ≤ 2 * (whole * den) + den := by
    rw [div_le_iff₀ hden'] at hhigh
    have hscaled : (2 * num : ℚ) ≤ 2 * (whole * den) + den := by linarith
    exact_mod_cast hscaled
  have hodd' : whole % 2 = 1 → 2 * (whole * den) < 2 * num + den ∧ 2 * num < 2 * (whole * den) + den := by
    intro h
    obtain ⟨hlow, hhigh⟩ := hodd h
    rw [lt_div_iff₀ hden'] at hlow
    rw [div_lt_iff₀ hden'] at hhigh
    have hscaled : (2 * (whole * den) : ℚ) < 2 * num + den := by linarith
    have hscaled' : (2 * num : ℚ) < 2 * (whole * den) + den := by linarith
    exact ⟨by exact_mod_cast hscaled, by exact_mod_cast hscaled'⟩
  have hnum : den * (num / den) + num % den = num := Nat.div_add_mod num den
  have hrest : num % den < den := Nat.mod_lt num hden
  rw [roundHalfEven]
  generalize num / den = quotient at hnum ⊢
  generalize num % den = rest at hnum hrest ⊢
  have hcomm : whole * den = den * whole := Nat.mul_comm _ _
  have hcases : whole = quotient ∨ whole = quotient + 1 := by
    have hle : quotient ≤ whole := by
      by_contra hlt
      have hmul : den * (whole + 1) ≤ den * quotient := Nat.mul_le_mul_left den (by omega)
      rw [Nat.mul_add] at hmul
      omega
    have hge : whole ≤ quotient + 1 := by
      by_contra hlt
      have hmul : den * (quotient + 2) ≤ den * whole := Nat.mul_le_mul_left den (by omega)
      rw [Nat.mul_add] at hmul
      omega
    omega
  rcases hcases with rfl | rfl
  · cases hcompare : compare (2 * rest) den with
    | lt => rfl
    | eq =>
        have hhalf : 2 * rest = den := Nat.compare_eq_eq.mp hcompare
        dsimp only
        omega
    | gt =>
        have hhalf : den < 2 * rest := Nat.compare_eq_gt.mp hcompare
        omega
  · rw [Nat.mul_add] at hcomm
    cases hcompare : compare (2 * rest) den with
    | lt =>
        have hhalf : 2 * rest < den := Nat.compare_eq_lt.mp hcompare
        omega
    | eq =>
        have hhalf : 2 * rest = den := Nat.compare_eq_eq.mp hcompare
        dsimp only
        omega
    | gt => rfl

/-! ### Exponents -/

theorem two_zpow_le_div_iff {num den : ℕ} (hden : 0 < den) (power : ℤ) :
    (2 : ℚ) ^ power ≤ num / den ↔
      den * Nat.pow 2 power.toNat ≤ num * Nat.pow 2 (-power).toNat := by
  have hden' : (0 : ℚ) < den := by exact_mod_cast hden
  have hpower : (0 : ℚ) < 2 ^ (-power).toNat := by positivity
  rw [zpow_eq_toNat_div, div_le_div_iff₀ hpower hden', mul_comm]
  norm_cast

/-- The binary exponent of a quotient is found from those of its two numbers, which miss it by at most one. -/
theorem floorLog2_spec {num den : ℕ} (hnum : 0 < num) (hden : 0 < den) :
    (2 : ℚ) ^ Magnitude.floorLog2 num den ≤ num / den ∧
      (num : ℚ) / den < 2 ^ (Magnitude.floorLog2 num den + 1) := by
  have hden' : (0 : ℚ) < den := by exact_mod_cast hden
  have hnumLow : (2 : ℚ) ^ (num.log2 : ℤ) ≤ num := by exact_mod_cast Nat.log2_self_le hnum.ne'
  have hnumHigh : (num : ℚ) < 2 ^ ((num.log2 : ℤ) + 1) := by exact_mod_cast Nat.lt_log2_self
  have hdenLow : (2 : ℚ) ^ (den.log2 : ℤ) ≤ den := by exact_mod_cast Nat.log2_self_le hden.ne'
  have hdenHigh : (den : ℚ) < 2 ^ ((den.log2 : ℤ) + 1) := by exact_mod_cast Nat.lt_log2_self
  have hlow : (2 : ℚ) ^ ((num.log2 : ℤ) - den.log2 - 1) ≤ num / den := by
    rw [le_div_iff₀ hden']
    calc (2 : ℚ) ^ ((num.log2 : ℤ) - den.log2 - 1) * den
        ≤ 2 ^ ((num.log2 : ℤ) - den.log2 - 1) * 2 ^ ((den.log2 : ℤ) + 1) := by gcongr
      _ = 2 ^ (num.log2 : ℤ) := by
          rw [← zpow_add₀ two_ne_zero]
          congr 1
          omega
      _ ≤ num := hnumLow
  have hhigh : (num : ℚ) / den < 2 ^ ((num.log2 : ℤ) - den.log2 + 1) := by
    rw [div_lt_iff₀ hden']
    calc (num : ℚ) < 2 ^ ((num.log2 : ℤ) + 1) := hnumHigh
      _ = 2 ^ ((num.log2 : ℤ) - den.log2 + 1) * 2 ^ (den.log2 : ℤ) := by
          rw [← zpow_add₀ two_ne_zero]
          congr 1
          omega
      _ ≤ 2 ^ ((num.log2 : ℤ) - den.log2 + 1) * den := by gcongr
  rw [Magnitude.floorLog2]
  split
  · next hguess => exact ⟨(two_zpow_le_div_iff hden _).mpr hguess, hhigh⟩
  · next hguess =>
      rw [← two_zpow_le_div_iff hden, not_le] at hguess
      exact ⟨hlow, by rwa [sub_add_cancel]⟩

namespace Magnitude

theorem significand_eq (bits : ℕ) :
    significand bits = if bits < 2 ^ 52 then bits else 2 ^ 52 + bits % 2 ^ 52 := rfl

theorem exponent_eq (bits : ℕ) : exponent bits = ((bits / 2 ^ 52 - 1 : ℕ) : ℤ) - 1074 := rfl

/-- The bits count the significands of all exponents below, and then up to the significand. -/
theorem bits_eq (bits : ℕ) :
    (exponent bits + 1074).toNat * 2 ^ 52 + significand bits = bits := by
  rw [significand_eq, exponent_eq]
  split <;> omega

theorem exponent_ge (bits : ℕ) : -1074 ≤ exponent bits := by
  rw [exponent_eq]
  omega

theorem exponent_le {bits : ℕ} (h : bits < infinity) : exponent bits ≤ 971 := by
  have hbits : bits < 2047 * 2 ^ 52 := h
  rw [exponent_eq]
  omega

theorem significand_lt (bits : ℕ) : significand bits < 2 ^ 53 := by
  rw [significand_eq]
  split <;> omega

theorem significand_pos {bits : ℕ} (h : 0 < bits) : 0 < significand bits := by
  rw [significand_eq]
  split <;> omega

/-- Above the least exponent the hidden bit is set. -/
theorem le_significand {bits : ℕ} (h : -1074 < exponent bits) : 2 ^ 52 ≤ significand bits := by
  rw [exponent_eq] at h
  rw [significand_eq]
  split <;> omega

end Magnitude

namespace Interval

/-- The quotients in an interval. -/
structure Holds (interval : Interval) (quotient : ℚ) : Prop where
  low_le : interval.low * 2 ^ interval.exponent ≤ quotient
  le_high : quotient ≤ interval.high * 2 ^ interval.exponent
  inside : interval.closed = false →
    interval.low * 2 ^ interval.exponent < quotient ∧ quotient < interval.high * 2 ^ interval.exponent

theorem low_ge (bits : ℕ) : 4 * Magnitude.significand bits ≤ (ofMagnitude bits).low + 2 := by
  rw [ofMagnitude]
  dsimp only
  split <;> omega

/-- Just below a power of two the numbers are half as far apart. -/
theorem low_eq_of_power {bits : ℕ} (hpower : Magnitude.significand bits = 2 ^ 52)
    (hexponent : -1074 < Magnitude.exponent bits) :
    (ofMagnitude bits).low = 4 * Magnitude.significand bits - 1 :=
  if_pos ⟨hpower, hexponent⟩

theorem closed_eq_false {bits : ℕ} (h : Magnitude.significand bits % 2 = 1) :
    (ofMagnitude bits).closed = false := by
  rw [ofMagnitude]
  simp [h]

/-- A quotient of the interval, in units of the last place: it is at most a half away from the significand,
less if that is odd, and just below a power of two at most a quarter. -/
theorem Holds.scaled {bits : ℕ} {quotient : ℚ} (h : (ofMagnitude bits).Holds quotient) :
    (Magnitude.significand bits : ℚ) - 1 / 2 ≤ quotient / 2 ^ Magnitude.exponent bits ∧
    quotient / 2 ^ Magnitude.exponent bits ≤ Magnitude.significand bits + 1 / 2 ∧
    (Magnitude.significand bits % 2 = 1 →
      (Magnitude.significand bits : ℚ) - 1 / 2 < quotient / 2 ^ Magnitude.exponent bits ∧
        quotient / 2 ^ Magnitude.exponent bits < Magnitude.significand bits + 1 / 2) ∧
    (Magnitude.significand bits = 2 ^ 52 → -1074 < Magnitude.exponent bits →
      (Magnitude.significand bits : ℚ) - 1 / 4 ≤ quotient / 2 ^ Magnitude.exponent bits) := by
  have hunit : (0 : ℚ) < 2 ^ Magnitude.exponent bits := by positivity
  have hquarter : (2 : ℚ) ^ (ofMagnitude bits).exponent = 2 ^ Magnitude.exponent bits / 4 := by
    have hexponent : (ofMagnitude bits).exponent = Magnitude.exponent bits - 2 := rfl
    rw [hexponent, zpow_sub₀ two_ne_zero]
    norm_num
  have hhigh : ((ofMagnitude bits).high : ℚ) = 4 * Magnitude.significand bits + 2 := by
    have hnat : (ofMagnitude bits).high = 4 * Magnitude.significand bits + 2 := rfl
    rw [hnat]
    push_cast
    ring
  have hlow : (4 * Magnitude.significand bits : ℚ) ≤ (ofMagnitude bits).low + 2 := by
    exact_mod_cast low_ge bits
  have hfrom := h.low_le
  have hto := h.le_high
  rw [hquarter] at hfrom hto
  rw [hhigh] at hto
  rw [le_div_iff₀ hunit, div_le_iff₀ hunit]
  refine ⟨by nlinarith, by nlinarith, fun hodd => ?_, fun hpower hexponent => ?_⟩
  · obtain ⟨hfrom, hto⟩ := h.inside (closed_eq_false hodd)
    rw [hquarter] at hfrom hto
    rw [hhigh] at hto
    rw [lt_div_iff₀ hunit, div_lt_iff₀ hunit]
    exact ⟨by nlinarith, by nlinarith⟩
  · have hnat : (ofMagnitude bits).low + 1 = 4 * Magnitude.significand bits := by
      rw [low_eq_of_power hpower hexponent]
      omega
    have hnear : ((ofMagnitude bits).low : ℚ) + 1 = 4 * Magnitude.significand bits := by
      exact_mod_cast hnat
    rw [le_div_iff₀ hunit]
    nlinarith

end Interval

namespace Magnitude

theorem scaled_quotient (num den : ℕ) (power : ℤ) :
    ((num * Nat.pow 2 (-power).toNat : ℕ) : ℚ) / ((den * Nat.pow 2 power.toNat : ℕ) : ℚ) =
      num / den / 2 ^ power := by
  rw [zpow_eq_toNat_div]
  simp only [Nat.pow_eq, Nat.cast_mul, Nat.cast_pow, Nat.cast_ofNat]
  field_simp

/-- The bits of a quotient from its rounded significand at the exponent where that has its full width. -/
theorem ofQuotient_of_round {num den whole : ℕ} {power : ℤ} (hnum : 0 < num) (hden : 0 < den)
    (hpower : max (floorLog2 num den - 52) (-1074) = power)
    (hlow : (whole : ℚ) - 1 / 2 ≤ num / den / 2 ^ power) (hhigh : (num : ℚ) / den / 2 ^ power ≤ whole + 1 / 2)
    (hodd : whole % 2 = 1 →
      (whole : ℚ) - 1 / 2 < num / den / 2 ^ power ∧ (num : ℚ) / den / 2 ^ power < whole + 1 / 2) :
    ofQuotient num den = min infinity ((power + 1074).toNat * 2 ^ 52 + whole) := by
  have hscaled : 0 < den * Nat.pow 2 power.toNat := Nat.mul_pos hden (Nat.pow_pos (by decide))
  rw [← scaled_quotient] at hlow hhigh hodd
  have hround := roundHalfEven_eq hscaled hlow hhigh hodd
  have hexponent : max (floorLog2 num den - fractionBits) leastExponent = power := hpower
  rw [ofQuotient, if_neg hnum.ne']
  simp only [hexponent, hround]
  rfl

/-- **Rounding is correct.** A quotient in the interval of a finite magnitude is rounded to it. -/
theorem ofQuotient_eq {num den : ℕ} {bits : ℕ} (hnum : 0 < num) (hden : 0 < den)
    (hfinite : bits < infinity) (h : (Interval.ofMagnitude bits).Holds (num / den)) :
    ofQuotient num den = bits := by
  obtain ⟨hlow, hhigh, hodd, hpower⟩ := h.scaled
  obtain ⟨hfloor, hceil⟩ := floorLog2_spec hnum hden
  have hunit : (0 : ℚ) < 2 ^ exponent bits := by positivity
  have hleast := exponent_ge bits
  have hbits := bits_eq bits
  have hfits : (significand bits : ℚ) ≤ 2 ^ 53 - 1 := by
    have hnat : significand bits + 1 ≤ 2 ^ 53 := significand_lt bits
    have hcast : (significand bits : ℚ) + 1 ≤ 2 ^ 53 := by exact_mod_cast hnat
    linarith
  have habove : floorLog2 num den < exponent bits + 53 := by
    rw [← zpow_lt_zpow_iff_right₀ (one_lt_two : (1 : ℚ) < 2), zpow_add₀ two_ne_zero]
    calc (2 : ℚ) ^ floorLog2 num den ≤ num / den := hfloor
      _ ≤ (significand bits + 1 / 2) * 2 ^ exponent bits := (div_le_iff₀ hunit).mp hhigh
      _ < 2 ^ exponent bits * 2 ^ (53 : ℤ) := by
          rw [mul_comm]
          have hwidth : (2 : ℚ) ^ (53 : ℤ) = 2 ^ 53 := zpow_natCast 2 53
          rw [hwidth]
          gcongr
          linarith
  by_cases hexact : max (floorLog2 num den - 52) (-1074) = exponent bits
  · rw [ofQuotient_of_round hnum hden hexact hlow hhigh hodd, hbits]
    exact min_eq_right hfinite.le
  · -- The quotient is below the power of two that it is rounded to, and has the exponent below.
    have hexponent : -1074 < exponent bits := by omega
    have hbelow : (num : ℚ) / den / 2 ^ exponent bits < 2 ^ 52 := by
      rw [div_lt_iff₀ hunit]
      calc (num : ℚ) / den < 2 ^ (floorLog2 num den + 1) := hceil
        _ ≤ 2 ^ (exponent bits + 52) := zpow_le_zpow_right₀ one_le_two (by omega)
        _ = 2 ^ 52 * 2 ^ exponent bits := by
            rw [zpow_add₀ two_ne_zero, mul_comm]
            exact congrArg (· * _) (zpow_natCast 2 52)
    have hsignificand : significand bits = 2 ^ 52 := by
      refine le_antisymm ?_ (le_significand hexponent)
      have hlt : (significand bits : ℚ) < 2 ^ 52 + 1 := by linarith
      have hnat : significand bits < 2 ^ 52 + 1 := by exact_mod_cast hlt
      omega
    have hnear := hpower hsignificand hexponent
    rw [hsignificand] at hnear hbits
    push_cast at hnear
    have hfrom : exponent bits + 51 < floorLog2 num den + 1 := by
      rw [← zpow_lt_zpow_iff_right₀ (one_lt_two : (1 : ℚ) < 2), zpow_add₀ two_ne_zero]
      have hwidth : (2 : ℚ) ^ (51 : ℤ) = 2 ^ 51 := zpow_natCast 2 51
      calc (2 : ℚ) ^ exponent bits * 2 ^ (51 : ℤ)
          ≤ num / den / 2 ^ exponent bits * 2 ^ exponent bits := by
            rw [hwidth, mul_comm]
            gcongr
            linarith
        _ = num / den := div_mul_cancel₀ _ hunit.ne'
        _ < 2 ^ (floorLog2 num den + 1) := hceil
    have hpred : max (floorLog2 num den - 52) (-1074) = exponent bits - 1 := by omega
    have hstep : (exponent bits + 1074).toNat = (exponent bits - 1 + 1074).toNat + 1 := by omega
    have hcarry : (exponent bits - 1 + 1074).toNat * 2 ^ 52 + 2 ^ 53 = bits := by
      calc (exponent bits - 1 + 1074).toNat * 2 ^ 52 + 2 ^ 53
          = ((exponent bits - 1 + 1074).toNat + 1) * 2 ^ 52 + 2 ^ 52 := by ring
        _ = bits := by rw [← hstep, hbits]
    have htwice : (num : ℚ) / den / 2 ^ (exponent bits - 1) = 2 * (num / den / 2 ^ exponent bits) := by
      rw [zpow_sub_one₀ two_ne_zero]
      field_simp
    have hround : ofQuotient num den = min infinity ((exponent bits - 1 + 1074).toNat * 2 ^ 52 + 2 ^ 53) :=
      ofQuotient_of_round hnum hden hpred
        (by rw [htwice]; push_cast; linarith) (by rw [htwice]; push_cast; linarith)
        (fun hodd => absurd hodd (by norm_num))
    rw [hround, hcarry]
    exact min_eq_right hfinite.le

end Magnitude

end LoopScript.Number
