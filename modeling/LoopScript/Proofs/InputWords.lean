import LoopScript.Number.Plain
import LoopScript.Proofs.Deliveries
import LoopScript.Proofs.TypedLines

/-! The words of an input that is a text. Blanks at which a text is cut do not matter for its words, and
every line but the last ends with a blank: so the words of the lines are the words of the text, however they
are spread over lines (`Supplies.cut`). Taking a number takes the first of them and leaves the others,
whether or not it is a number (`Supplies.next`). -/

namespace LoopScript

namespace Text

/-! ### Words of two texts -/

theorem wordsFrom_blank {c : Char} (h : isBlank c = true) (waiting rest : List Char) :
    wordsFrom waiting (c :: rest) = wordsFrom waiting [] ++ wordsFrom [] rest := by
  cases waiting <;> simp [wordsFrom, h]

theorem wordsFrom_plain {c : Char} (h : isBlank c = false) (waiting rest : List Char) :
    wordsFrom waiting (c :: rest) = wordsFrom (c :: waiting) rest := by
  cases waiting <;> simp [wordsFrom, h]

/-- At a blank a text can be cut. -/
theorem wordsFrom_append_blank {c : Char} (h : isBlank c = true) (waiting front rest : List Char) :
    wordsFrom waiting (front ++ c :: rest) = wordsFrom waiting front ++ wordsFrom [] rest := by
  induction front generalizing waiting with
  | nil => exact wordsFrom_blank h waiting rest
  | cons first front ih =>
      rw [List.cons_append]
      cases hfirst : isBlank first with
      | true => rw [wordsFrom_blank hfirst, ih, wordsFrom_blank hfirst, List.append_assoc]
      | false => rw [wordsFrom_plain hfirst, ih, wordsFrom_plain hfirst]

theorem words_append_blank {c : Char} (h : isBlank c = true) (front rest : List Char) :
    words (String.ofList (front ++ c :: rest)) =
      words (String.ofList front) ++ words (String.ofList rest) := by
  simp only [words, String.toList_ofList]
  rw [wordsFrom_append_blank h, List.map_append]

theorem wordsFrom_of_not_blank {word : List Char} (h : ∀ c ∈ word, isBlank c = false)
    (waiting : List Char) : wordsFrom waiting word = wordsFrom (word.reverse ++ waiting) [] := by
  induction word generalizing waiting with
  | nil => rfl
  | cons c word ih =>
      obtain ⟨hc, hword⟩ := List.forall_mem_cons.mp h
      rw [wordsFrom_plain hc, ih hword, List.reverse_cons, List.append_assoc]
      rfl

/-- A text without blanks is one word. -/
theorem words_of_not_blank {word : String} (hne : word ≠ "") (h : ∀ c ∈ word.toList, isBlank c = false) :
    words word = [word] := by
  have hreverse : word.toList.reverse ≠ [] := by simpa using hne
  obtain ⟨c, rest, hcons⟩ := List.exists_cons_of_ne_nil hreverse
  have hback : (c :: rest).reverse = word.toList := by rw [← hcons, List.reverse_reverse]
  rw [words, wordsFrom_of_not_blank h, List.append_nil, hcons, wordsFrom, hback, List.map_singleton,
    String.ofList_toList]
  nofun

end Text

namespace NumberInput

open Diagnostic (Cause)

/-- What is delivered for the next word of an input, if there is one, on a line with a number. -/
def delivered (line : ℕ) : Option String → Except Cause Float
  | none => .error .endOfInput
  | some word =>
      match Number.Literal.value? word with
      | some value => .ok value
      | none => .error (.notNumeric line word)

/-- An input that has these words left: those of the current line, and then those of a text. -/
def Supplies (input : NumberInput) (words : List String) : Prop :=
  ∃ text, input.unread = encode text ∧ words = input.words ++ Text.words text

/-- An input with nothing read of a text has the words of the text. -/
theorem supplies_words (text : String) : Supplies { unread := encode text } (Text.words text) :=
  ⟨text, rfl, rfl⟩

theorem cutLine_eq_self {bytes : List UInt8} (h : newlineByte ∉ bytes) : cutLine bytes = (bytes, []) := by
  induction bytes with
  | nil => rfl
  | cons byte bytes ih =>
      simp only [List.mem_cons, not_or] at h
      rw [cutLine, if_neg (Ne.symm h.1), ih h.2]

/-- The first line of a text is a text, and so is what follows it, and their words are those of both. -/
theorem cutLine_encode (text : String) :
    ∃ line after, cutLine (encode text) = (encode line, encode after) ∧
      Text.words text = Text.words line ++ Text.words after := by
  by_cases hmem : '\n' ∈ text.toList
  · obtain ⟨front, back, hsplit, hfront⟩ := List.eq_append_cons_of_mem hmem
    have hnewline : encode "\n" = [newlineByte] := by decide
    have hline : newlineByte ∉ encode (String.ofList front) :=
      newlineByte_not_mem_encode (by rwa [String.toList_ofList])
    have htext : text = String.ofList front ++ "\n" ++ String.ofList back := by
      apply String.toList_injective
      simp [hsplit]
    refine ⟨String.ofList front ++ "\n", String.ofList back, ?_, ?_⟩
    · rw [htext, encode_append, encode_append, hnewline, List.append_assoc, List.singleton_append,
        cutLine_of_not_mem hline]
    · have hblank : Text.isBlank '\n' = true := by decide
      have hback : String.ofList front ++ "\n" = String.ofList (front ++ '\n' :: []) := by
        apply String.toList_injective
        simp
      have hwhole : text = String.ofList (front ++ '\n' :: back) := by rw [← hsplit, String.ofList_toList]
      rw [hback, Text.words_append_blank hblank, hwhole, Text.words_append_blank hblank, List.append_assoc]
      rfl
  · refine ⟨text, "", cutLine_eq_self (newlineByte_not_mem_encode hmem), ?_⟩
    exact (List.append_nil _).symm

namespace Supplies

/-- Taking a number takes the next word and leaves the others. -/
theorem next {input : NumberInput} {words : List String} (h : input.Supplies words) :
    ∃ line, input.next.1 = delivered line words.head? ∧ input.next.2.Supplies words.tail := by
  fun_induction NumberInput.next input generalizing words with
  | case1 unread word rest line =>
      obtain ⟨text, hunread, rfl⟩ := h
      exact ⟨line, rfl, text, hunread, rfl⟩
  | case2 line =>
      obtain ⟨text, hunread, rfl⟩ := h
      have hempty : some text = some "" := by
        rw [← decode?_encode text, ← decode?_encode ""]
        exact congrArg decode? hunread.symm
      obtain rfl := Option.some.inj hempty
      exact ⟨line, rfl, "", rfl, rfl⟩
  | case3 byte rest line hdecode =>
      obtain ⟨text, hunread, rfl⟩ := h
      obtain ⟨first, after, hcut, -⟩ := cutLine_encode text
      rw [← hunread] at hcut
      rw [hcut, decode?_encode] at hdecode
      cases hdecode
  | case4 byte rest line found hdecode ih =>
      obtain ⟨text, hunread, rfl⟩ := h
      obtain ⟨first, after, hcut, hwords⟩ := cutLine_encode text
      rw [← hunread] at hcut
      rw [hcut, decode?_encode] at hdecode
      obtain rfl := Option.some.inj hdecode
      exact ih ⟨after, congrArg Prod.snd hcut, hwords⟩

/-- After some numbers have been taken, as many words are gone. -/
theorem afterTaking {input : NumberInput} {words : List String} (h : input.Supplies words) (count : ℕ) :
    (NumberInput.afterTaking count input).Supplies (words.drop count) := by
  induction count generalizing input words with
  | zero => exact h
  | succ count ih =>
      obtain ⟨-, -, hrest⟩ := h.next
      rw [NumberInput.afterTaking, Function.iterate_succ_apply, ← List.drop_tail]
      exact ih hrest

/-- The number that is taken when so many others have been taken is that of the next word. -/
theorem nth {input : NumberInput} {words : List String} (h : input.Supplies words) (n : ℕ) :
    ∃ line, (NumberInput.afterTaking n input).next.1 = delivered line words[n]? := by
  obtain ⟨line, hnext, -⟩ := (h.afterTaking n).next
  rw [List.head?_drop] at hnext
  exact ⟨line, hnext⟩

end Supplies

end NumberInput

end LoopScript
