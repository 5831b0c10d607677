import LoopScript.Proofs.RoundedQuotients

/-! Decimals that are read back. A decimal is read as a magnitude whenever it lies in the interval of that
magnitude, in whatever way its digits and its power of ten are divided (`Decimal.toMagnitude_eq`). The
shortest decimal of a magnitude lies in its interval: a point of a grid is taken only if it does, and on the
finest grid the magnitude itself is a point (`holds_shortest`). -/

namespace LoopScript.Number

namespace Decimal

def value (decimal : Decimal) : ℚ := decimal.digits * 10 ^ decimal.exponent

theorem value_trimZeros (digits : ℕ) (exponent : ℤ) :
    (trimZeros digits exponent).value = digits * 10 ^ exponent := by
  fun_induction trimZeros digits exponent with
  | case1 digits exponent h ih =>
      obtain ⟨rest, rfl⟩ : 10 ∣ digits := Nat.dvd_of_mod_eq_zero h.2
      rw [ih, Nat.mul_div_cancel_left rest (by decide), zpow_add_one₀ (by norm_num)]
      push_cast
      ring
  | case2 digits exponent h => rfl

/-! ### The leading digit -/

theorem digits_lt_pow (decimal : Decimal) : decimal.digits < 10 ^ decimal.digitChars.length :=
  (Nat.length_toDigits_le_iff (by decide) Nat.length_toDigits_pos).mp le_rfl

theorem pow_le_digits {decimal : Decimal} (h : decimal.digits ≠ 0) :
    10 ^ (decimal.digitChars.length - 1) ≤ decimal.digits := by
  rcases Nat.eq_zero_or_pos (decimal.digitChars.length - 1) with hone | hmore
  · rw [hone]
    exact Nat.pos_of_ne_zero h
  · by_contra hlt
    have hle := (Nat.length_toDigits_le_iff (by decide) hmore).mpr (Nat.lt_of_not_le hlt)
    have hlength : decimal.digitChars.length ≤ decimal.digitChars.length - 1 := hle
    omega

theorem zpow_le_value {decimal : Decimal} (h : decimal.digits ≠ 0) :
    10 ^ decimal.leadingExponent ≤ decimal.value := by
  have hlength : 0 < decimal.digitChars.length := Nat.length_toDigits_pos
  have hpred : (decimal.digitChars.length : ℤ) - 1 = (decimal.digitChars.length - 1 : ℕ) := by omega
  have hdigits : (10 : ℚ) ^ (decimal.digitChars.length - 1) ≤ decimal.digits := by
    exact_mod_cast pow_le_digits h
  rw [leadingExponent, hpred, zpow_add₀ (by norm_num), zpow_natCast, value]
  gcongr

theorem value_lt_zpow (decimal : Decimal) : decimal.value < 10 ^ (decimal.leadingExponent + 1) := by
  have hexponent : decimal.leadingExponent + 1 = decimal.digitChars.length + decimal.exponent := by
    rw [leadingExponent]
    ring
  have hdigits : (decimal.digits : ℚ) < 10 ^ decimal.digitChars.length := by
    exact_mod_cast digits_lt_pow decimal
  rw [hexponent, zpow_add₀ (by norm_num), zpow_natCast, value]
  gcongr

/-! ### Reading decimals -/

theorem quotient_eq_value (decimal : Decimal) :
    ((decimal.digits * Nat.pow 10 decimal.exponent.toNat : ℕ) : ℚ) /
      ((Nat.pow 10 (-decimal.exponent).toNat : ℕ) : ℚ) = decimal.value := by
  rw [value, zpow_eq_toNat_div]
  simp only [Nat.pow_eq, Nat.cast_mul, Nat.cast_pow, Nat.cast_ofNat]
  field_simp

theorem two_pow_lt_ten_pow : (2 : ℚ) ^ 1023 < 10 ^ 308 := by
  have hfactor : (2 : ℚ) ^ 93 < 10 ^ 28 := by norm_num
  calc (2 : ℚ) ^ 1023 = (2 ^ 93) ^ 11 := (pow_mul 2 93 11)
    _ < (10 ^ 28) ^ 11 := by gcongr
    _ = 10 ^ 308 := (pow_mul 10 28 11).symm

/-- The greatest finite magnitude is below the decimals that are taken for infinite. -/
theorem finite_lt : (2 : ℚ) ^ 53 * 2 ^ (971 : ℤ) < 10 ^ (310 : ℤ) := by
  have hpower : (2 : ℚ) ^ (971 : ℤ) = 2 ^ 971 := zpow_natCast 2 971
  have hdecimal : (10 : ℚ) ^ (310 : ℤ) = 10 ^ 310 := zpow_natCast 10 310
  rw [hpower, hdecimal, ← pow_add]
  calc (2 : ℚ) ^ (53 + 971) = 2 ^ 1023 * 2 := pow_succ 2 1023
    _ < 10 ^ 308 * 10 ^ 2 := by
        refine mul_lt_mul two_pow_lt_ten_pow ?_ two_pos (by positivity)
        norm_num
    _ = 10 ^ 310 := (pow_add 10 308 2).symm

/-- The least magnitude, and even its half, is above the decimals that are taken for zero. -/
theorem lt_positive : (10 : ℚ) ^ (-330 : ℤ) < 1 / 2 * 2 ^ (-1074 : ℤ) := by
  have hpower : (2 : ℚ) ^ (-1074 : ℤ) = (2 ^ 1074)⁻¹ := by
    rw [zpow_neg]
    exact congrArg _ (zpow_natCast 2 1074)
  have hdecimal : (10 : ℚ) ^ (-330 : ℤ) = (10 ^ 330)⁻¹ := by
    rw [zpow_neg]
    exact congrArg _ (zpow_natCast 10 330)
  rw [hpower, hdecimal, one_div, ← mul_inv]
  refine inv_strictAnti₀ (by positivity) ?_
  calc (2 : ℚ) * 2 ^ 1074 = 2 ^ 1023 * 2 ^ 52 := by
        rw [← pow_succ', ← pow_add]
    _ < 10 ^ 308 * 10 ^ 22 := by
        refine mul_lt_mul two_pow_lt_ten_pow ?_ (by positivity) (by positivity)
        norm_num
    _ = 10 ^ 330 := (pow_add 10 308 22).symm

/-- A decimal in the interval of a finite magnitude other than zero is read as that magnitude. -/
theorem toMagnitude_eq {decimal : Decimal} {bits : ℕ} (hpos : 0 < bits) (hfinite : bits < Magnitude.infinity)
    (h : (Interval.ofMagnitude bits).Holds decimal.value) : decimal.toMagnitude = bits := by
  obtain ⟨hlow, hhigh, -, -⟩ := h.scaled
  have hunit : (0 : ℚ) < 2 ^ Magnitude.exponent bits := by positivity
  rw [le_div_iff₀ hunit] at hlow
  rw [div_le_iff₀ hunit] at hhigh
  have hsignificand : (1 : ℚ) ≤ Magnitude.significand bits := by
    exact_mod_cast Magnitude.significand_pos hpos
  have hfits : (Magnitude.significand bits : ℚ) ≤ 2 ^ 53 - 1 := by
    have hnat : Magnitude.significand bits + 1 ≤ 2 ^ 53 := Magnitude.significand_lt bits
    have hcast : (Magnitude.significand bits : ℚ) + 1 ≤ 2 ^ 53 := by exact_mod_cast hnat
    linarith
  have hleast : (2 : ℚ) ^ (-1074 : ℤ) ≤ 2 ^ Magnitude.exponent bits :=
    zpow_le_zpow_right₀ one_le_two (Magnitude.exponent_ge bits)
  have hgreatest : (2 : ℚ) ^ Magnitude.exponent bits ≤ 2 ^ (971 : ℤ) :=
    zpow_le_zpow_right₀ one_le_two (Magnitude.exponent_le hfinite)
  have hfrom : (10 : ℚ) ^ (-330 : ℤ) < decimal.value := by
    calc (10 : ℚ) ^ (-330 : ℤ) < 1 / 2 * 2 ^ (-1074 : ℤ) := lt_positive
      _ ≤ (Magnitude.significand bits - 1 / 2) * 2 ^ Magnitude.exponent bits :=
          mul_le_mul (by linarith only [hsignificand]) hleast (by positivity)
            (by linarith only [hsignificand])
      _ ≤ decimal.value := hlow
  have hto : decimal.value < (10 : ℚ) ^ (310 : ℤ) := by
    calc decimal.value ≤ (Magnitude.significand bits + 1 / 2) * 2 ^ Magnitude.exponent bits := hhigh
      _ ≤ 2 ^ 53 * 2 ^ (971 : ℤ) :=
          mul_le_mul (by linarith only [hfits]) hgreatest hunit.le (by positivity)
      _ < 10 ^ (310 : ℤ) := finite_lt
  have hdigits : decimal.digits ≠ 0 := by
    intro hzero
    rw [value, hzero, Nat.cast_zero, zero_mul] at hfrom
    have hnonneg : (0 : ℚ) < 10 ^ (-330 : ℤ) := by positivity
    exact absurd hfrom (lt_asymm hnonneg)
  have hover : ¬ overflowExponent ≤ decimal.leadingExponent := by
    refine not_le.mpr ((zpow_lt_zpow_iff_right₀ (by norm_num : (1 : ℚ) < 10)).mp ?_)
    exact (zpow_le_value hdigits).trans_lt hto
  have hunder : ¬ decimal.leadingExponent < underflowExponent := by
    have hlt := (zpow_lt_zpow_iff_right₀ (by norm_num : (1 : ℚ) < 10)).mp (hfrom.trans decimal.value_lt_zpow)
    rw [underflowExponent]
    omega
  rw [toMagnitude, if_neg hdigits, if_neg hover, if_neg hunder]
  have hnum : 0 < decimal.digits * Nat.pow 10 decimal.exponent.toNat :=
    Nat.mul_pos (Nat.pos_of_ne_zero hdigits) (Nat.pow_pos (by decide))
  refine Magnitude.ofQuotient_eq hnum (Nat.pow_pos (by decide)) hfinite ?_
  rwa [quotient_eq_value]

end Decimal

namespace Interval

/-! ### Points of a grid -/

/-- The common denominator of the quarters and a grid. -/
def denominator (interval : Interval) (grid : ℤ) : ℚ :=
  2 ^ (-interval.exponent).toNat * 10 ^ (-grid).toNat

theorem denominator_pos (interval : Interval) (grid : ℤ) : 0 < interval.denominator grid := by
  rw [denominator]
  positivity

theorem scale_eq (interval : Interval) (grid : ℤ) (quarters : ℕ) :
    (interval.scale grid quarters : ℚ) =
      quarters * 2 ^ interval.exponent * interval.denominator grid := by
  rw [scale, denominator, zpow_eq_toNat_div]
  simp only [Nat.pow_eq, Nat.cast_mul, Nat.cast_pow, Nat.cast_ofNat]
  field_simp

theorem step_eq (interval : Interval) (grid : ℤ) :
    (interval.step grid : ℚ) = 10 ^ grid * interval.denominator grid := by
  rw [step, denominator, zpow_eq_toNat_div]
  simp only [Nat.pow_eq, Nat.cast_mul, Nat.cast_pow, Nat.cast_ofNat]
  field_simp

theorem scale_le_iff (interval : Interval) (grid : ℤ) (quarters multiple : ℕ) :
    interval.scale grid quarters ≤ multiple * interval.step grid ↔
      (quarters : ℚ) * 2 ^ interval.exponent ≤ multiple * 10 ^ grid := by
  rw [← mul_le_mul_iff_left₀ (interval.denominator_pos grid), ← scale_eq, mul_assoc, ← step_eq]
  norm_cast

theorem le_scale_iff (interval : Interval) (grid : ℤ) (quarters multiple : ℕ) :
    multiple * interval.step grid ≤ interval.scale grid quarters ↔
      (multiple : ℚ) * 10 ^ grid ≤ quarters * 2 ^ interval.exponent := by
  rw [← mul_le_mul_iff_left₀ (interval.denominator_pos grid), ← scale_eq, mul_assoc, ← step_eq]
  norm_cast

theorem holds_of_contains {interval : Interval} {grid : ℤ} {multiple : ℕ}
    (h : interval.contains grid multiple = true) : interval.Holds (multiple * 10 ^ grid) := by
  rw [contains] at h
  cases hclosed : interval.closed with
  | true =>
      simp only [hclosed, if_true, Bool.and_eq_true, decide_eq_true_eq] at h
      refine ⟨(interval.scale_le_iff grid _ _).mp h.1, (interval.le_scale_iff grid _ _).mp h.2, ?_⟩
      rw [hclosed]
      nofun
  | false =>
      simp only [hclosed, Bool.false_eq_true, if_false, Bool.and_eq_true, decide_eq_true_eq] at h
      have hlow : (interval.low : ℚ) * 2 ^ interval.exponent < multiple * 10 ^ grid := by
        rw [← not_le, ← interval.le_scale_iff, not_le]
        exact h.1
      have hhigh : (multiple : ℚ) * 10 ^ grid < interval.high * 2 ^ interval.exponent := by
        rw [← not_le, ← interval.scale_le_iff, not_le]
        exact h.2
      exact ⟨hlow.le, hhigh.le, fun _ => ⟨hlow, hhigh⟩⟩

theorem contains_of_nearest? {tie : Tie} {interval : Interval} {grid : ℤ} {multiple : ℕ}
    (h : interval.nearest? tie grid = some multiple) : interval.contains grid multiple = true := by
  unfold nearest? at h
  dsimp only at h
  split at h
  · cases h
  · next hlower _ =>
      obtain rfl := Option.some.inj h
      exact hlower
  · next _ hupper =>
      obtain rfl := Option.some.inj h
      exact hupper
  · next hlower hupper =>
      split at h
      · obtain rfl := Option.some.inj h
        exact hlower
      · obtain rfl := Option.some.inj h
        exact hupper
      · cases tie with
        | up =>
            obtain rfl := Option.some.inj h
            exact hupper
        | even =>
            obtain rfl := Option.some.inj h
            rcases Nat.mod_two_eq_zero_or_one (interval.below grid) with heven | hodd
            · rwa [heven]
            · rwa [hodd]

/-- On a grid that is fine enough the middle is a point. -/
theorem below_eq_middle {interval : Interval} {grid : ℤ} (h : grid ≤ min interval.exponent 0) :
    (interval.below grid : ℚ) * 10 ^ grid = interval.middle * 2 ^ interval.exponent := by
  have hdvd : interval.step grid ∣ interval.scale grid interval.middle := by
    have hgrid : grid.toNat = 0 := by omega
    have hpower : (2 : ℕ) ^ (-interval.exponent).toNat ∣ 10 ^ (-grid).toNat :=
      (pow_dvd_pow 2 (by omega)).trans (pow_dvd_pow_of_dvd (by decide) _)
    have hstep : interval.step grid = 2 ^ (-interval.exponent).toNat := by
      rw [step, hgrid]
      exact Nat.one_mul _
    rw [hstep]
    exact hpower.mul_left _
  have hexact : interval.below grid * interval.step grid = interval.scale grid interval.middle :=
    Nat.div_mul_cancel hdvd
  have hcast : (interval.below grid : ℚ) * interval.step grid = interval.scale grid interval.middle := by
    exact_mod_cast hexact
  rw [step_eq, scale_eq, ← mul_assoc] at hcast
  exact mul_right_cancel₀ (interval.denominator_pos grid).ne' hcast

theorem holds_search (tie : Tie) {interval : Interval}
    (hmiddle : interval.Holds (interval.middle * 2 ^ interval.exponent)) {finer : ℕ} {grid : ℤ}
    (h : grid - finer ≤ min interval.exponent 0) : interval.Holds (interval.search tie finer grid).value := by
  induction finer generalizing grid with
  | zero =>
      rw [search, Decimal.value_trimZeros, below_eq_middle (by simpa using h)]
      exact hmiddle
  | succ finer ih =>
      rw [search]
      cases hnearest : interval.nearest? tie grid with
      | some multiple =>
          dsimp only
          rw [Decimal.value_trimZeros]
          exact holds_of_contains (contains_of_nearest? hnearest)
      | none =>
          refine ih ?_
          push_cast at h
          omega

/-- A finite magnitude other than zero is in the middle of its interval. -/
theorem holds_middle {bits : ℕ} (hpos : 0 < bits) :
    (ofMagnitude bits).Holds ((ofMagnitude bits).middle * 2 ^ (ofMagnitude bits).exponent) := by
  have hunit : (0 : ℚ) < 2 ^ (ofMagnitude bits).exponent := by positivity
  have hlow : (ofMagnitude bits).low < (ofMagnitude bits).middle := by
    have hsignificand := Magnitude.significand_pos hpos
    rw [ofMagnitude]
    dsimp only
    split <;> omega
  have hhigh : (ofMagnitude bits).middle < (ofMagnitude bits).high :=
    Nat.lt_add_of_pos_right two_pos
  have hlow' : ((ofMagnitude bits).low : ℚ) < (ofMagnitude bits).middle := by exact_mod_cast hlow
  have hhigh' : ((ofMagnitude bits).middle : ℚ) < (ofMagnitude bits).high := by exact_mod_cast hhigh
  have hfrom := mul_lt_mul_of_pos_right hlow' hunit
  have hto := mul_lt_mul_of_pos_right hhigh' hunit
  exact ⟨hfrom.le, hto.le, fun _ => ⟨hfrom, hto⟩⟩

end Interval

/-- **The shortest decimal is read back.** The decimal that is found for a finite magnitude other than zero
lies in the interval of that magnitude. -/
theorem holds_shortest (tie : Tie) {bits : ℕ} (hpos : 0 < bits) :
    (Interval.ofMagnitude bits).Holds (shortest tie bits).value := by
  refine Interval.holds_search tie (Interval.holds_middle hpos) ?_
  omega

end LoopScript.Number
