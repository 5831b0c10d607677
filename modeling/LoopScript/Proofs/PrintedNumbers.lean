import LoopScript.Output
import LoopScript.Proofs.InputWords
import LoopScript.Proofs.Lexicon
import LoopScript.Proofs.NumberTexts

/-! Numbers that are printed and read again. A printed number is a text without blanks, so that each line is
one word, and the words of the whole output are the printed numbers in order (`words_text`). Each of them is
read as the number that it was printed for, except that the sign of zero and the bits of what is not a
number are lost. -/

namespace LoopScript

open Number (plain reread)
open Number.Literal (isNumeric)
open NumberInput (encode afterTaking)

namespace Number

/-- Bits are kept by the number that they are made into, unless it is none. -/
theorem toBits_ofBits_of_not_isNaN {bits : UInt64} (h : (Float.ofBits bits).isNaN = false) :
    (Float.ofBits bits).toBits = bits := by
  have hbits := toBits_ofBits bits
  split_ifs at hbits
  · rw [Float.isNaN_eq_decide_eq_nan, Float.toBits_inj.mp hbits, decide_eq_true rfl] at h
    cases h
  · exact hbits

/-! ### Printed numbers as words -/

theorem isBlank_of_isNumeric {c : Char} (h : isNumeric c = true) : Text.isBlank c = false := by
  simp only [isNumeric, Bool.or_eq_true, decide_eq_true_eq, or_assoc] at h
  rcases h with hdigit | rfl | rfl | rfl | rfl
  · have hplain := (Lexicon.not_blank_of_digit (Lexicon.isDigit_eq_true.mp hdigit)).1
    exact (Bool.or_eq_false_iff.mp hplain).1
  all_goals decide

theorem plain_not_blank (value : Float) : ∀ c ∈ (plain value).toList, Text.isBlank c = false := by
  rw [plain]
  split_ifs with hzero hnan hinfinite
  · simp [Text.isBlank, Text.blankRanges]
  · simp [Text.isBlank, Text.blankRanges]
  · cases isNegative value <;> simp [withSign, Text.isBlank, Text.blankRanges]
  · intro c hc
    rw [toList_withSign] at hc
    have hspells := spells_plainText (shortest .up (magnitude value))
    exact isBlank_of_isNumeric
      ((List.mem_append.mp hc).elim (Literal.isNumeric_signText _ c) (hspells.isNumeric c))

theorem plain_ne_empty (value : Float) : plain value ≠ "" := by
  intro hempty
  have hread := value?_plain value
  rw [hempty] at hread
  cases hread

end Number

namespace Output

/-- The words of printed numbers are the printed numbers. -/
theorem words_text {output : Output} {values : List Float} (h : output.lines = values.map plain) :
    Text.words output.text = values.map plain := by
  have hnewline : Text.isBlank '\n' = true := by decide
  rw [text, h]
  clear h
  induction values with
  | nil => rfl
  | cons value values ih =>
      have hjoin : String.join (((value :: values).map plain).map (· ++ "\n")) =
          String.ofList ((plain value).toList ++
            '\n' :: (String.join ((values.map plain).map (· ++ "\n"))).toList) := by
        apply String.toList_injective
        simp [String.toList_join]
      rw [hjoin, Text.words_append_blank hnewline, String.ofList_toList, String.ofList_toList, ih,
        Text.words_of_not_blank (Number.plain_ne_empty value) (Number.plain_not_blank value)]
      rfl

/-- Prints some numbers, each on a line of its own. -/
def printAll (values : List Float) (output : Output) : Except String Output :=
  values.foldlM (fun output value => output.writeLine (plain value)) output

/-- An output that is not blocked takes all lines. -/
theorem printAll_eq_ok {output : Output} (hopen : output.blocked = none) (values : List Float) :
    ∃ after, printAll values output = .ok after ∧ after.lines = output.lines ++ values.map plain := by
  induction values generalizing output with
  | nil => exact ⟨output, rfl, (List.append_nil _).symm⟩
  | cons value values ih =>
      have hwrite := writeLine_of_open hopen (plain value)
      have hopen' : ({ output with printed := plain value :: output.printed } : Output).blocked = none :=
        hopen
      obtain ⟨after, hafter, hlines⟩ := ih hopen'
      refine ⟨after, ?_, ?_⟩
      · rw [printAll, List.foldlM_cons, hwrite]
        exact hafter
      · rw [hlines, lines_writeLine hwrite, List.append_assoc]
        rfl

end Output

/-- What the printed form of a bit pattern is read back as: the same bits, but for the sign of zero, and for
the bits of what is not a number. -/
def ReadsBack (pattern : UInt64) (value : Float) : Prop :=
  if (Float.ofBits pattern).isNaN then value.isNaN = true
  else if pattern = Number.signBit then value.toBits = 0
  else value.toBits = pattern

theorem readsBack_reread (pattern : UInt64) : ReadsBack pattern (reread (Float.ofBits pattern)) := by
  rw [ReadsBack, reread]
  cases hnan : (Float.ofBits pattern).isNaN with
  | true =>
      have hbeyond := (Number.isNaN_iff _).mp hnan
      have hzero : Number.magnitude (Float.ofBits pattern) ≠ (0 : ℕ) := Nat.ne_zero_of_lt hbeyond
      rw [if_pos rfl, if_neg hzero, if_pos hbeyond]
      exact Number.isNaN_notANumber
  | false =>
      have hwithin : ¬ Number.Magnitude.infinity < Number.magnitude (Float.ofBits pattern) := by
        rw [← Number.isNaN_iff, hnan]
        exact Bool.false_ne_true
      have hbits := Number.toBits_ofBits_of_not_isNaN hnan
      have hmagnitude : Number.magnitude (Float.ofBits pattern) = pattern.toNat % 2 ^ 63 := by
        rw [Number.magnitude, hbits]
        rfl
      rw [if_neg Bool.false_ne_true, if_neg hwithin]
      split_ifs with hsign hzero hzero
      · rfl
      · refine absurd ?_ hzero
        rw [hmagnitude, hsign]
        rfl
      · have hlt : pattern.toNat < 2 ^ 64 := pattern.toNat_lt
        have hcases : pattern.toNat = 0 ∨ pattern.toNat = 2 ^ 63 := by
          have hmod : pattern.toNat % 2 ^ 63 = 0 := hmagnitude.symm.trans hzero
          omega
        rcases hcases with h | h
        · exact (UInt64.toNat_inj.mp h).symm
        · exact absurd (UInt64.toNat_inj.mp h) hsign
      · exact hbits

/-- **What is printed can be read again.** Whatever numbers are printed one after the other, an input with
the text that was printed delivers them in the same order, bit for bit: only the sign of zero is lost, and
what is not a number comes back as some value of the kind. Behind them the input ends. -/
theorem printed_numbers_read_back (patterns : List UInt64) :
    ∃ output, Output.printAll (patterns.map Float.ofBits) {} = .ok output ∧
      (∀ n pattern, patterns[n]? = some pattern →
        ∃ value, (afterTaking n { unread := encode output.text }).next.1 = .ok value ∧
          ReadsBack pattern value) ∧
      (afterTaking patterns.length { unread := encode output.text }).next.1 = .error .endOfInput := by
  obtain ⟨output, hprint, hlines⟩ :=
    Output.printAll_eq_ok (rfl : ({} : Output).blocked = none) (patterns.map Float.ofBits)
  have hwords : Text.words output.text = (patterns.map Float.ofBits).map plain := Output.words_text hlines
  have hsupplies := NumberInput.supplies_words output.text
  rw [hwords] at hsupplies
  refine ⟨output, hprint, fun n pattern hpattern => ?_, ?_⟩
  · obtain ⟨line, hnext⟩ := hsupplies.nth n
    refine ⟨reread (Float.ofBits pattern), ?_, readsBack_reread pattern⟩
    rw [hnext]
    simp [hpattern, NumberInput.delivered, Number.value?_plain]
  · obtain ⟨line, hnext⟩ := hsupplies.nth patterns.length
    rw [hnext]
    simp [NumberInput.delivered]

end LoopScript
