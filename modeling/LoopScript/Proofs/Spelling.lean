import LoopScript.Proofs.Expectation
import LoopScript.Proofs.Segmentation
import LoopScript.Proofs.WrittenNumbers

/-! Tokens as they are written. A token that was read has a lexeme for its characters, and is therefore
legible; and lexemes with a blank behind each are read back one by one, so that every list of tokens
that have lexemes is the list of tokens of a text. -/

namespace LoopScript

/-- What tokens are compared by: their kinds and their characters, but not their places. -/
def Token.shape (token : Token) : Token.Kind × Option String := (token.kind, token.text)

namespace Lexicon

open Token (Kind Lexeme blankRun)
open Text (isBlank)

/-- A token that counts is read from these characters, at some place. -/
def Spelling (token : Token) (run : List Char) : Prop :=
  token.kind ≠ .space ∧ Lexical run token.kind ∧ token.text = (tokenOf [] run token.kind).text

/-! ### Numbers have values -/

open Number.Literal (written)

theorem exists_written_of_lexical {run : List Char} (h : Lexical run .number) :
    ∃ whole fraction, run = written whole fraction [] ∧ whole ≠ [] ∧
      ∀ c ∈ whole ++ fraction, c.isDigit = true := by
  generalize hkind : Kind.number = kind at h
  cases h with
  | blanks | identifier => cases hkind
  | keyword _ hmem =>
      subst hkind
      simp [keywords] at hmem
  | operator hmem =>
      subst hkind
      simp [operators] at hmem
  | whole hrun =>
      refine ⟨run, [], (List.append_nil _).symm, hrun.1, ?_⟩
      rw [List.append_nil]
      exact hrun.isDigit
  | @fraction run part hrun hpart =>
      obtain ⟨c, part, rfl⟩ := List.exists_cons_of_ne_nil hpart.1
      exact ⟨run, c :: part, (List.append_nil _).symm, hrun.1,
        List.forall_mem_append.mpr ⟨hrun.isDigit, hpart.isDigit⟩⟩

/-- A number has no sign, and its value is that of a decimal. -/
theorem value?_of_lexical {run : List Char} (h : Lexical run .number) :
    ∃ decimal : Number.Decimal, Number.Literal.value? (String.ofList run) =
      some (Number.ofMagnitude false decimal.toMagnitude) := by
  obtain ⟨whole, fraction, rfl, hne, hdigits⟩ := exists_written_of_lexical h
  exact ⟨_, Number.Literal.value?_written false hne hdigits .absent⟩

theorem Spelling.legible {token : Token} {run : List Char} (h : Spelling token run) :
    token.Legible := by
  obtain ⟨-, hlexical, htext⟩ := h
  refine ⟨fun hkind => ?_, fun hkind => ?_⟩
  · have hword : token.kind = .identifier ∨ token.kind = .number := by
      generalize token.kind = kind at hkind
      cases kind <;> first | exact .inl rfl | exact .inr rfl | cases hkind
    rw [htext, tokenOf, if_pos hword]
    rfl
  · rw [hkind] at hlexical
    have hword : token.word = String.ofList run := by simp [Token.word, htext, tokenOf, hkind]
    rw [hword]
    obtain ⟨decimal, hvalue⟩ := value?_of_lexical hlexical
    rw [hvalue]
    rfl

/-! ### Lexemes with blanks between them -/

theorem Lexical.blank_not_mem {run : List Char} {kind : Kind} {blank : Char} (h : Lexical run kind)
    (hkind : kind ≠ .space) (hblank : isBlank blank = true) : blank ∉ run := by
  have hplain : ∀ {c : Char}, (isBlank c || c = '#') = false → blank ≠ c := by
    rintro c hc rfl
    rw [hblank] at hc
    cases hc
  have hletter : ∀ {c : Char}, IsLetter c ∨ IsDigit c ∨ c = '_' → blank ≠ c := by
    intro c hc
    rcases hc with hc | hc | hc
    · exact hplain (not_blank_of_wordStart (.inl hc))
    · exact hplain (not_blank_of_digit hc).1
    · exact hplain (not_blank_of_wordStart (.inr hc))
  have hword : ∀ {word : List Char}, Word word → blank ∉ word := by
    intro word hword hmem
    cases word with
    | nil => exact List.not_mem_nil hmem
    | cons c word =>
        rcases List.mem_cons.mp hmem with hhead | hmem
        · exact hplain (not_blank_of_wordStart hword.1) hhead
        · exact hletter (hword.2 _ hmem) rfl
  have hdigits : ∀ {run : List Char}, Digits run → blank ∉ run :=
    fun hrun hmem => hletter (.inr (.inl (hrun.2 _ hmem))) rfl
  cases h with
  | blanks => exact absurd rfl hkind
  | keyword hrun | identifier hrun => exact hword hrun
  | whole hrun => exact hdigits hrun
  | fraction hrun hpart =>
      have hpoint : blank ≠ '.' := hplain (by decide)
      simp [hdigits hrun, hdigits hpart, hpoint]
  | operator hmem =>
      have hsigns : ∀ entry ∈ operators, entry.1.all (fun c => !isBlank c) = true := by decide
      intro hin
      have hsign := List.all_eq_true.mp (hsigns _ hmem) blank hin
      simp [hblank] at hsign

theorem blanks_of_lexical {run : List Char} (h : Lexical run .space) : Blanks run := by
  generalize hkind : Kind.space = kind at h
  cases h with
  | blanks hrun => exact hrun
  | identifier | whole | fraction => cases hkind
  | keyword _ hmem =>
      subst hkind
      simp [keywords] at hmem
  | operator hmem =>
      subst hkind
      simp [operators] at hmem

/-- A lexeme that counts does not start as blanks do. -/
theorem Lexical.head_not_blank {c : Char} {run : List Char} {kind : Kind}
    (h : Lexical (c :: run) kind) (hkind : kind ≠ .space) : (isBlank c || c = '#') = false := by
  cases hblank : (isBlank c || c = '#') with
  | false => rfl
  | true =>
      exfalso
      obtain ⟨found, hfound, hwithin⟩ : ∃ found, Lexeme.starting c (run ++ []) = some found ∧
        Within (c :: run) kind found := h.within
      have hsplit := (Lexeme.covered_append_rest hfound).1
      rw [starting_of_blank _ hblank] at hfound
      obtain rfl := Option.some.inj hfound
      rcases hwithin with ⟨more, hcovered, hmore⟩ | ⟨-, hsame⟩
      · rw [hcovered, List.append_nil, List.append_assoc] at hsplit
        simp_all
      · exact hkind hsame.symm

/-- A blank ends every lexeme that counts. -/
theorem munch_before_blank {run : List Char} {kind : Kind} (h : Lexical run kind)
    (hkind : kind ≠ .space) (rest : List Char) : Munch (run ++ ' ' :: rest) run kind := by
  obtain ⟨c, run, rfl⟩ := List.exists_cons_of_ne_nil h.ne_nil
  obtain ⟨found, hfound, hwithin⟩ : ∃ found, Lexeme.starting c (run ++ ' ' :: rest) = some found ∧
    Within (c :: run) kind found := h.within
  have hlexical := lexical_of_starting hfound
  have hmunch := munch_of_starting hfound
  rcases hwithin with ⟨more, hcovered, hmore⟩ | ⟨hcovered, rfl⟩
  · exfalso
    have hsplit := (Lexeme.covered_append_rest hfound).1
    rw [hcovered, List.append_assoc, ← List.cons_append] at hsplit
    obtain ⟨d, more, rfl⟩ := List.exists_cons_of_ne_nil hmore
    obtain ⟨rfl, -⟩ := List.cons.inj (List.append_cancel_left hsplit)
    rw [hcovered] at hlexical
    by_cases hspace : found.kind = .space
    · -- Blanks would start at the first character, where a lexeme that counts starts.
      rw [hspace] at hlexical
      have hblank := (blanks_of_lexical hlexical).head
      rw [h.head_not_blank hkind] at hblank
      cases hblank
    · exact hlexical.blank_not_mem hspace (by decide : isBlank ' ' = true) (by simp)
  · rw [hcovered] at hmunch
    exact hmunch

/-- A text that does not start with blanks. -/
def StartsPlain (text : List Char) : Prop :=
  ∀ c rest, text = c :: rest → (isBlank c || c = '#') = false

theorem munch_blank {rest : List Char} (h : StartsPlain rest) : Munch (' ' :: rest) [' '] .space := by
  have hrest : blankRun false rest = ([], rest) := by
    cases rest with
    | nil => rfl
    | cons c rest =>
        have hplain := h c rest rfl
        rw [Bool.or_eq_false_iff, decide_eq_false_iff_not] at hplain
        rw [blankRun, if_neg hplain.2, if_neg (by simp [hplain.1])]
  have hrun : blankRun false (' ' :: rest) = ([' '], rest) := by
    have hblank : isBlank ' ' = true := by decide
    rw [blankRun, if_neg (by decide), if_pos hblank, hrest]
  have hstarting := starting_of_blank rest (by decide : (isBlank ' ' || ' ' = '#') = true)
  rw [hrun] at hstarting
  exact munch_of_starting hstarting

/-- Lexemes with a blank behind each are cut apart again. -/
theorem exists_segments_of_spelling {ts : List Token} (h : ∀ token ∈ ts, ∃ run, Spelling token run)
    (before : List Char) :
    ∃ cut all, Segments [] before cut all ∧ StartsPlain cut ∧
      (all.filter Token.isSignificant).map Token.shape = ts.map Token.shape := by
  induction ts generalizing before with
  | nil => exact ⟨[], [], .nil, nofun, rfl⟩
  | cons token ts ih =>
      obtain ⟨⟨run, hspace, hlexical, htext⟩, hrest⟩ := List.forall_mem_cons.mp h
      obtain ⟨cut, all, hsegments, hplain, hshapes⟩ := ih hrest (before ++ run ++ [' '])
      have hblank : Segments [] (before ++ run) ([' '] ++ cut)
          (tokenOf (before ++ run) [' '] .space :: all) :=
        .cons (by simpa using munch_blank hplain) hsegments
      have hrun := munch_before_blank hlexical hspace cut
      refine ⟨run ++ ([' '] ++ cut), _, .cons (by simpa using hrun) hblank, ?_, ?_⟩
      · intro c rest hcut
        obtain ⟨d, run, rfl⟩ := List.exists_cons_of_ne_nil hlexical.ne_nil
        obtain ⟨rfl, -⟩ := List.cons.inj hcut
        exact hlexical.head_not_blank hspace
      · have hshape : (tokenOf before run token.kind).shape = token.shape := by
          rw [Token.shape, Token.shape, htext]
          rfl
        have hsignificant : (tokenOf before run token.kind).isSignificant = true :=
          decide_eq_true hspace
        have hskipped : (tokenOf (before ++ run) [' '] .space).isSignificant = false := rfl
        rw [List.filter_cons_of_pos hsignificant, List.filter_cons_of_neg (by simp [hskipped]),
          List.map_cons, List.map_cons, hshape, hshapes]

/-- Tokens that have lexemes are the tokens of a text. -/
theorem exists_text_of_spelling {ts : List Token} (h : ∀ token ∈ ts, ∃ run, Spelling token run) :
    ∃ text all, tokenize text = .ok all ∧
      (all.filter Token.isSignificant).map Token.shape = ts.map Token.shape ++ [(.endOfText, none)] := by
  obtain ⟨cut, all, hsegments, -, hshapes⟩ := exists_segments_of_spelling h []
  have htokens := tokens_at_end hsegments
  refine ⟨String.ofList cut, all ++ [endToken cut], ?_, ?_⟩
  · have hstart : tokenize (String.ofList cut) = (readerAt [] cut).tokens := by
      rw [tokenize, Reader.ofString, String.toList_ofList]
      rfl
    rw [hstart]
    exact htokens
  · rw [List.filter_append, List.map_append, hshapes]
    rfl

/-! ### Some token of every kind -/

/-- Characters that are read as a token of some kind. -/
def sampleRun (kind : Kind) : List Char :=
  if kind = .identifier then ['x']
  else if kind = .number then ['0']
  else
    match operators.find? (·.2 = kind), keywords.find? (·.2 = kind) with
    | some entry, _ => entry.1
    | none, some entry => entry.1.toList
    | none, none => []

theorem spelling_sample {kind : Kind} (hspace : kind ≠ .space) (hend : kind ≠ .endOfText) :
    Spelling (Grammar.sample kind) (sampleRun kind) := by
  refine ⟨hspace, ?_, ?_⟩
  · have hstarting : ∃ c rest, sampleRun kind = c :: rest ∧
        Lexeme.starting c rest = some ⟨kind, c :: rest, []⟩ := by
      cases kind <;> first | contradiction | exact ⟨_, _, rfl, rfl⟩
    obtain ⟨c, rest, hrun, hstarting⟩ := hstarting
    rw [hrun]
    exact lexical_of_starting hstarting
  · cases kind <;> rfl

end Lexicon
end LoopScript
