import LoopScript.Proofs.Lexicon
import LoopScript.Reader

/-! Reading a text cuts it into its longest lexemes, one after the other. The tokens are those of the
lexemes, each at the place that the characters before it give, and reading stops with an error at
the first character where no lexeme starts. Every text is cut in exactly one way, up to its end or up
to such a character. -/

namespace LoopScript

namespace Reader

theorem tokens_eq (reader : Reader) :
    reader.tokens =
      match next reader with
      | .ok token after =>
          if token.kind = .endOfText then .ok [token] else after.tokens.map (token :: ·)
      | .error report _ => .error report := by
  rw [tokens]
  split
  · next hnext => rw [hnext]
  · next hnext => rw [hnext]

theorem tokens_of_next {reader after : Reader} {token : Token} (h : next reader = .ok token after)
    (hend : token.kind ≠ .endOfText) : reader.tokens = after.tokens.map (token :: ·) := by
  rw [tokens_eq, h]
  exact if_neg hend

end Reader

namespace Lexicon

open Token (Kind Lexeme)

/-- The place behind some characters: one line more than there are newlines among them, and one
column more than there are characters behind the last newline. -/
def placeAfter (before : List Char) : Location where
  line := 1 + before.count '\n'
  column := 1 + (before.reverse.takeWhile (· ≠ '\n')).length

/-- The token of a lexeme that stands behind some characters. Identifiers and numbers keep their
characters. -/
def tokenOf (before lexeme : List Char) (kind : Kind) : Token where
  kind := kind
  text := if kind = .identifier ∨ kind = .number then some (String.ofList lexeme) else none
  location := placeAfter before

/-- Characters between those before them and those behind them, cut into longest lexemes, and the
tokens of these. -/
inductive Segments (behind : List Char) : (before cut : List Char) → List Token → Prop
  | nil {before : List Char} : Segments behind before [] []
  | cons {before lexeme cut : List Char} {kind : Kind} {ts : List Token}
      (hmunch : Munch (lexeme ++ (cut ++ behind)) lexeme kind)
      (tail : Segments behind (before ++ lexeme) cut ts) :
      Segments behind before (lexeme ++ cut) (tokenOf before lexeme kind :: ts)

/-- No lexeme is at the front of a text. -/
def Stuck (text : List Char) : Prop :=
  ∀ lexeme kind, Lexical lexeme kind → ¬ lexeme <+: text

/-! ### Places -/

theorem step_placeAfter (before : List Char) (c : Char) :
    (placeAfter before).step c = placeAfter (before ++ [c]) := by
  by_cases hline : c = '\n'
  · subst hline
    simp [Location.step, placeAfter, Nat.add_assoc]
  · simp [Location.step, placeAfter, hline, Nat.add_assoc]

theorem after_placeAfter (before run : List Char) :
    (placeAfter before).after run = placeAfter (before ++ run) := by
  induction run generalizing before with
  | nil => rw [List.append_nil]; rfl
  | cons c run ih =>
      have hstep : (placeAfter before).after (c :: run) = ((placeAfter before).step c).after run := rfl
      rw [hstep, step_placeAfter, ih, List.append_assoc, List.singleton_append]

/-! ### One token -/

/-- A reader between two parts of a text. -/
def readerAt (before text : List Char) : Reader := { chars := text, location := placeAfter before }

theorem Lexical.kind_ne_endOfText {lexeme : List Char} {kind : Kind} (h : Lexical lexeme kind) :
    kind ≠ .endOfText := by
  cases h with
  | blanks | identifier | whole | fraction => decide
  | keyword hword hmem =>
      rintro rfl
      simp [keywords] at hmem
  | operator hmem =>
      rintro rfl
      simp [operators] at hmem

theorem next_of_munch {before lexeme behind : List Char} {kind : Kind}
    (h : Munch (lexeme ++ behind) lexeme kind) :
    Reader.next (readerAt before (lexeme ++ behind)) =
      .ok (tokenOf before lexeme kind) (readerAt (before ++ lexeme) behind) := by
  obtain ⟨c, run, rfl⟩ := List.exists_cons_of_ne_nil h.lexical.ne_nil
  have hstarting : Lexeme.starting c (run ++ behind) = some ⟨kind, c :: run, behind⟩ :=
    starting_of_munch h rfl
  have htext : (if kind.hasText then some (String.ofList (c :: run)) else none) =
      if kind = .identifier ∨ kind = .number then some (String.ofList (c :: run)) else none := by
    cases kind <;> rfl
  simp only [Reader.next, Reader.scan, readerAt, List.cons_append, hstarting, htext, tokenOf,
    after_placeAfter]

theorem next_of_stuck {before behind : List Char} {c : Char} (h : Stuck (c :: behind)) :
    Reader.next (readerAt before (c :: behind)) =
      .error { kind := .lexical, message := s!"Unexpected character '{c}'",
               location := placeAfter before } (readerAt (before ++ [c]) behind) := by
  have hstarting : Lexeme.starting c behind = none := starting_eq_none_iff.mpr h
  simp only [Reader.next, Reader.scan, readerAt, hstarting, step_placeAfter]
  rfl

/-! ### All tokens -/

theorem tokens_of_segments {behind before cut : List Char} {ts : List Token}
    (h : Segments behind before cut ts) :
    (readerAt before (cut ++ behind)).tokens =
      (readerAt (before ++ cut) behind).tokens.map (ts ++ ·) := by
  induction h with
  | nil =>
      rename_i before
      rw [List.nil_append, List.append_nil]
      cases (readerAt before behind).tokens <;> rfl
  | @cons before lexeme cut kind ts hmunch _ ih =>
      have hend : (tokenOf before lexeme kind).kind ≠ .endOfText := hmunch.lexical.kind_ne_endOfText
      rw [List.append_assoc, Reader.tokens_of_next (next_of_munch hmunch) hend, ih, List.append_assoc]
      cases (readerAt (before ++ (lexeme ++ cut)) behind).tokens <;> rfl

/-- Every text can be cut up to its end, or up to a character where no lexeme starts. -/
theorem exists_segments (before text : List Char) :
    ∃ cut behind ts, text = cut ++ behind ∧ Segments behind before cut ts ∧
      (behind = [] ∨ ∃ c rest, behind = c :: rest ∧ Stuck behind) := by
  induction hlength : text.length using Nat.strong_induction_on generalizing before text with
  | _ length ih =>
      cases text with
      | nil => exact ⟨[], [], [], rfl, .nil, .inl rfl⟩
      | cons c rest =>
          cases hfound : Lexeme.starting c rest with
          | none =>
              have hstuck : Stuck (c :: rest) := starting_eq_none_iff.mp hfound
              exact ⟨[], c :: rest, [], rfl, .nil, .inr ⟨c, rest, rfl, hstuck⟩⟩
          | some found =>
              have hmunch := munch_of_starting hfound
              obtain ⟨hsplit, hne⟩ := Lexeme.covered_append_rest hfound
              have hshorter : found.rest.length < length := by
                have hpos := List.length_pos_iff.mpr hne
                have htotal := congrArg List.length hsplit
                rw [List.length_append] at htotal
                omega
              obtain ⟨cut, behind, ts, hcut, hsegments, hend⟩ :=
                ih _ hshorter (before ++ found.covered) found.rest rfl
              refine ⟨found.covered ++ cut, behind, tokenOf before found.covered found.kind :: ts, ?_, ?_,
                hend⟩
              · rw [List.append_assoc, ← hcut, hsplit]
              · refine .cons ?_ hsegments
                rwa [← hcut, hsplit]

def endToken (before : List Char) : Token := { kind := .endOfText, location := placeAfter before }

theorem tokens_at_end {before cut : List Char} {ts : List Token} (h : Segments [] before cut ts) :
    (readerAt before cut).tokens = .ok (ts ++ [endToken (before ++ cut)]) := by
  have hend : (readerAt (before ++ cut) []).tokens = .ok [endToken (before ++ cut)] := by
    rw [Reader.tokens_eq]
    rfl
  have htokens := tokens_of_segments h
  rw [List.append_nil, hend] at htokens
  exact htokens

theorem tokens_of_stuck {before cut behind : List Char} {c : Char} {ts : List Token}
    (h : Segments (c :: behind) before cut ts) (hstuck : Stuck (c :: behind)) :
    (readerAt before (cut ++ c :: behind)).tokens =
      .error { kind := .lexical, message := s!"Unexpected character '{c}'",
               location := placeAfter (before ++ cut) } := by
  rw [tokens_of_segments h, Reader.tokens_eq, next_of_stuck hstuck]
  rfl

/-- **Longest lexemes.** The tokens of a text are those of its longest lexemes, cut off one after the
other up to its end, and the end token; and its first lexical error is at the first character where
cutting off lexemes gets stuck. -/
theorem tokenize_cuts_longest_lexemes (source : String) :
    (∀ ts, tokenize source = .ok ts ↔
      ∃ cut, Segments [] [] source.toList cut ∧ ts = cut ++ [endToken source.toList]) ∧
    ∀ report, tokenize source = .error report ↔
      ∃ cut c behind ts, source.toList = cut ++ c :: behind ∧ Segments (c :: behind) [] cut ts ∧
        Stuck (c :: behind) ∧
        report = { kind := .lexical, message := s!"Unexpected character '{c}'",
                   location := placeAfter cut } := by
  have hstart : tokenize source = (readerAt [] source.toList).tokens := rfl
  obtain ⟨cut, behind, cutTokens, hsplit, hsegments, hend⟩ := exists_segments [] source.toList
  constructor
  · intro ts
    constructor
    · intro h
      rcases hend with rfl | ⟨c, rest, rfl, hstuck⟩
      · rw [List.append_nil] at hsplit
        rw [← hsplit] at hsegments
        refine ⟨cutTokens, hsegments, ?_⟩
        rw [hstart, tokens_at_end hsegments] at h
        exact (Except.ok.inj h).symm
      · rw [hstart, hsplit, tokens_of_stuck hsegments hstuck] at h
        cases h
    · rintro ⟨tokens, htokens, rfl⟩
      rw [hstart]
      exact tokens_at_end htokens
  · intro report
    constructor
    · intro h
      rcases hend with rfl | ⟨c, rest, rfl, hstuck⟩
      · rw [List.append_nil] at hsplit
        rw [← hsplit] at hsegments
        rw [hstart, tokens_at_end hsegments] at h
        cases h
      · refine ⟨cut, c, rest, cutTokens, hsplit, hsegments, hstuck, ?_⟩
        rw [hstart, hsplit, tokens_of_stuck hsegments hstuck] at h
        exact (Except.error.inj h).symm
    · rintro ⟨cut, c, behind, ts, hcut, hsegments, hstuck, rfl⟩
      rw [hstart, hcut]
      exact tokens_of_stuck hsegments hstuck

end Lexicon
end LoopScript
