import LoopScript.Proofs.Rejection
import LoopScript.Proofs.Spelling

/-! Rejections are exact. A sequence of tokens is viable when some program starts with it. A text that
is no program is rejected either with its first lexical error, when all tokens in front of that error
are viable, or else with a report on the first token that makes them not viable; but a comma that no
name follows is reported itself, and not the token behind it. -/

namespace LoopScript

open Grammar

namespace Reader

/-- All tokens up to the first end token, which is included, or up to the first error. -/
def leading (reader : Reader) : List Token :=
  match _hnext : next reader with
  | .ok token after => if token.kind = .endOfText then [token] else token :: leading after
  | .error _ _ => []
termination_by reader.size
decreasing_by exact size_lt_of_next _hnext (by assumption)

theorem leading_eq (reader : Reader) :
    reader.leading =
      match next reader with
      | .ok token after => if token.kind = .endOfText then [token] else token :: after.leading
      | .error _ _ => [] := by
  rw [leading]
  split
  · next hnext => rw [hnext]
  · next hnext => rw [hnext]

theorem leading_of_next {reader after : Reader} {token : Token} (h : next reader = .ok token after)
    (hend : token.kind ≠ .endOfText) : reader.leading = token :: after.leading := by
  rw [leading_eq, h]
  exact if_neg hend

theorem leading_of_tokens {reader : Reader} {ts : List Token} (h : reader.tokens = .ok ts) :
    reader.leading = ts := by
  fun_induction tokens reader generalizing ts with
  | case1 reader token after hnext hend =>
      obtain rfl := Except.ok.inj h
      rw [leading_eq, hnext]
      exact if_pos hend
  | case2 reader token after hnext hend ih =>
      cases hlater : after.tokens with
      | ok later =>
          rw [hlater] at h
          obtain rfl := Except.ok.inj h
          rw [leading_of_next hnext hend, ih hlater]
      | error report =>
          rw [hlater] at h
          cases h
  | case3 => cases h

/-- A reader hands out no more tokens than its size, apart from the end token. -/
theorem length_leading_le (reader : Reader) :
    (reader.leading.filter (·.kind ≠ .endOfText)).length ≤ reader.size := by
  fun_induction leading reader with
  | case1 reader token after hnext hend => simp [hend]
  | case2 reader token after hnext hend ih =>
      have hsize := size_lt_of_next hnext hend
      rw [List.filter_cons_of_pos (by simpa using hend), List.length_cons]
      omega
  | case3 => simp

end Reader

/-- The tokens of a text that count, up to its first lexical error, or up to its end token. -/
def leadingTokens (source : String) : List Token :=
  (Reader.ofString source).leading.filter (·.kind ≠ .space)

/-- Some program starts with tokens like these: its text is read without error, and its tokens, which
make up a program, have the same kinds and characters in front. -/
def Viable (ts : List Token) : Prop :=
  ∃ text all program, tokenize text = .ok all ∧ Derives (all.filter (·.kind ≠ .space)) program ∧
    ts.map Token.shape <+: (all.filter (·.kind ≠ .space)).map Token.shape

/-- The token that is reported when this one does not fit behind those before it. -/
def blamed (before : List Token) (token : Token) : Token :=
  (before.getLast?.filter (·.kind = .comma)).getD token

namespace Lexicon

theorem leading_of_segments {behind before cut : List Char} {ts : List Token}
    (h : Segments behind before cut ts) :
    (readerAt before (cut ++ behind)).leading = ts ++ (readerAt (before ++ cut) behind).leading := by
  induction h with
  | nil => simp
  | @cons before lexeme cut kind ts hmunch _ ih =>
      have hend : (tokenOf before lexeme kind).kind ≠ .endOfText := hmunch.lexical.kind_ne_endOfText
      rw [List.append_assoc, Reader.leading_of_next (next_of_munch hmunch) hend, ih, List.append_assoc]
      rfl

theorem upcoming_of_segments {behind before cut : List Char} {ts : List Token}
    (h : Segments behind before cut ts) :
    (readerAt before (cut ++ behind)).upcoming =
      (ts.filter Token.isSignificant).map .ok ++ₛ (readerAt (before ++ cut) behind).upcoming := by
  induction h with
  | nil => simp
  | @cons before lexeme cut kind ts hmunch _ ih =>
      have hnext : Reader.next (readerAt before (lexeme ++ (cut ++ behind))) = _ := next_of_munch hmunch
      rw [List.append_assoc]
      by_cases hspace : kind = .space
      · rw [Reader.upcoming_congr (Reader.skipSpaces_of_next_space hnext hspace), ih,
          List.filter_cons_of_neg (by simp [Token.isSignificant, tokenOf, hspace]), List.append_assoc]
      · rw [Reader.upcoming_of_ok (Reader.skipSpaces_of_next hnext hspace), ih,
          List.filter_cons_of_pos (by simp [Token.isSignificant, tokenOf, hspace]), List.append_assoc]
        rfl

theorem spelling_of_segments {behind before cut : List Char} {ts : List Token}
    (h : Segments behind before cut ts) :
    ∀ token ∈ ts.filter Token.isSignificant, ∃ run, Spelling token run := by
  induction h with
  | nil => simp
  | @cons before lexeme cut kind ts hmunch _ ih =>
      intro token hmem
      obtain ⟨hmem, hsignificant⟩ := List.mem_filter.mp hmem
      rcases List.mem_cons.mp hmem with rfl | hmem
      · exact ⟨lexeme, of_decide_eq_true hsignificant, hmunch.lexical, rfl⟩
      · exact ih token (List.mem_filter.mpr ⟨hmem, hsignificant⟩)

/-- A token that was read: the end token, or one that has a lexeme. -/
def Readable (token : Token) : Prop :=
  token.shape = (.endOfText, none) ∨ ∃ run, Spelling token run

theorem Readable.legible {token : Token} (h : Readable token) : token.Legible := by
  rcases h with hend | ⟨run, hspelling⟩
  · have hkind : token.kind = .endOfText := congrArg Prod.fst hend
    exact ⟨fun htext => by simp [hkind, Token.Kind.hasText] at htext, fun h => by simp [hkind] at h⟩
  · exact hspelling.legible

theorem Readable.exists_spelling {token : Token} (h : Readable token) (hkind : token.kind ≠ .endOfText) :
    ∃ run, Spelling token run :=
  h.resolve_left fun hend => hkind (congrArg Prod.fst hend)

theorem Readable.shape_eq {token : Token} (h : Readable token) (hkind : token.kind = .endOfText) :
    token.shape = (.endOfText, none) :=
  h.resolve_right fun ⟨_, _, hlexical, _⟩ => hlexical.kind_ne_endOfText hkind

theorem readable_sample {kind : Token.Kind} (hspace : kind ≠ .space) : Readable (sample kind) := by
  by_cases hend : kind = .endOfText
  · subst hend
    exact .inl rfl
  · exact .inr ⟨_, spelling_sample hspace hend⟩

theorem readable_least {parts : List Part} (hspace : Part.token .space ∉ parts) :
    ∀ token ∈ parts.flatMap Part.least, Readable token := by
  intro token hmem
  obtain ⟨part, hpart, hleast⟩ := List.mem_flatMap.mp hmem
  cases part with
  | token kind =>
      rw [List.mem_singleton.mp hleast]
      refine readable_sample ?_
      rintro rfl
      exact hspace hpart
  | operand =>
      rw [List.mem_singleton.mp hleast]
      exact readable_sample (by decide)
  | operators | namesTail | target | block | elsePart => cases hleast

/-- Where the tokens that count end: with the end token, which comes again and again, or in front of
a lexical error. -/
def Ends (source : String) (ts : List Token) (tail : Stream' (Except Diagnostic Token)) : Prop :=
  (∃ body closing rest, ts = body ++ [closing] ∧ closing.kind = .endOfText ∧
    tail = Stream'.cons (.ok closing) rest) ∨
    ∃ report rest, tokenize source = .error report ∧ tail = Stream'.cons (.error report) rest

theorem Ends.of_cons {source : String} {first : Token} {ts : List Token}
    {tail : Stream' (Except Diagnostic Token)} (h : Ends source (first :: ts) tail)
    (hfirst : first.kind ≠ .endOfText) : Ends source ts tail := by
  rcases h with ⟨body, closing, rest, hbody, hclosing, htail⟩ | herror
  · cases body with
    | nil =>
        obtain ⟨rfl, -⟩ := List.cons.inj hbody
        exact absurd hclosing hfirst
    | cons _ body => exact .inl ⟨body, closing, rest, (List.cons.inj hbody).2, hclosing, htail⟩
  · exact .inr herror

theorem Ends.ne_cons_ok {source : String} {token : Token} {tail rest : Stream' (Except Diagnostic Token)}
    (h : Ends source [] tail) : tail ≠ Stream'.cons (.ok token) rest := by
  rintro rfl
  rcases h with ⟨body, closing, _, hbody, -⟩ | ⟨_, _, -, htail⟩
  · simp at hbody
  · cases (Stream'.cons_injective2 htail).1

/-- The tokens that count were read, and are what the parser has in front of it. -/
theorem leadingTokens_spec (source : String) :
    (∀ token ∈ leadingTokens source, Readable token) ∧
      ∃ tail, (Reader.ofString source).upcoming = (leadingTokens source).map .ok ++ₛ tail ∧
        Ends source (leadingTokens source) tail := by
  obtain ⟨cut, behind, ts, hsplit, hsegments, hend⟩ := exists_segments [] source.toList
  have hstart : Reader.ofString source = readerAt [] (cut ++ behind) := by rw [← hsplit]; rfl
  have hspelling := spelling_of_segments hsegments
  rw [leadingTokens, hstart, leading_of_segments hsegments, upcoming_of_segments hsegments,
    List.filter_append, List.nil_append]
  change ∀ token ∈ ts.filter (·.kind ≠ .space), _ at hspelling
  rcases hend with rfl | ⟨c, later, rfl, hstuck⟩
  · have hleading : (readerAt cut []).leading = [endToken cut] := by
      rw [Reader.leading_eq]
      rfl
    have hupcoming : (readerAt cut []).upcoming =
        Stream'.cons (.ok (endToken cut)) (readerAt cut []).upcoming :=
      Reader.upcoming_of_ok (Reader.skipSpaces_of_next rfl nofun)
    rw [hleading]
    refine ⟨fun token hmem => ?_, (readerAt cut []).upcoming, ?_,
      .inl ⟨_, endToken cut, _, rfl, rfl, hupcoming⟩⟩
    · rcases List.mem_append.mp hmem with hmem | hmem
      · exact .inr (hspelling token hmem)
      · rw [List.mem_singleton.mp (List.mem_filter.mp hmem).1]
        exact .inl rfl
    · rw [List.map_append, Stream'.append_append_stream]
      exact congrArg _ hupcoming
  · have hnext : Reader.next (readerAt cut (c :: later)) = _ := next_of_stuck hstuck
    have hleading : (readerAt cut (c :: later)).leading = [] := by rw [Reader.leading_eq, hnext]
    rw [hleading, Reader.upcoming_of_error (Reader.skipSpaces_of_next_error hnext), List.filter_nil,
      List.append_nil]
    refine ⟨fun token hmem => .inr (hspelling token hmem), _, rfl, .inr ⟨_, _, ?_, rfl⟩⟩
    have hsource : tokenize source = (readerAt [] (cut ++ c :: later)).tokens := by rw [← hsplit]; rfl
    rw [hsource, tokens_of_stuck hsegments hstuck]
    rfl

end Lexicon

/-! ### Viable sequences are those that can be gone through -/

open Lexicon (Readable Spelling)

theorem advanceAll_of_viable {ts : List Token} (h : Viable ts) :
    ∃ left, advanceAll wholeText ts = some left := by
  obtain ⟨text, all, program, -, hderives, more, hmore⟩ := h
  obtain ⟨front, back, hsplit, hfront, -⟩ := List.map_eq_append_iff.mp hmore.symm
  have hkinds : ts.map Token.kind = front.map Token.kind := by
    have hshapes := congrArg (List.map Prod.fst) hfront
    simpa [List.map_map, Function.comp_def, Token.shape] using hshapes.symm
  have hall := advanceAll_derives hderives
  rw [hsplit, advanceAll_append] at hall
  obtain ⟨left, hleft, -⟩ := Option.bind_eq_some_iff.mp hall
  exact ⟨left, by rw [advanceAll_congr hkinds, hleft]⟩

theorem readable_of_tokenize {source : String} {all : List Token} (h : tokenize source = .ok all) :
    ∀ token ∈ all.filter (·.kind ≠ .space), Readable token := by
  have hleading : leadingTokens source = all.filter (·.kind ≠ .space) := by
    rw [leadingTokens, Reader.leading_of_tokens h]
  exact hleading ▸ (Lexicon.leadingTokens_spec source).1

/-- A program of tokens that can be read is the program of a text. -/
theorem exists_text_of_derives {ts : List Token} {program : Program}
    (hreadable : ∀ token ∈ ts, Readable token) (h : Derives ts program) :
    ∃ text all, tokenize text = .ok all ∧
      (all.filter (·.kind ≠ .space)).map Token.shape = ts.map Token.shape := by
  obtain ⟨body, closing, rfl, hclosing, hbody⟩ := Parser.exists_closing h
  obtain ⟨hreadable, hend⟩ := List.forall_mem_append.mp hreadable
  obtain ⟨text, all, htokens, hshapes⟩ :=
    Lexicon.exists_text_of_spelling fun token hmem =>
      (hreadable token hmem).exists_spelling (hbody token hmem)
  refine ⟨text, all, htokens, hshapes.trans ?_⟩
  rw [List.map_append, List.map_singleton, (hend closing List.mem_cons_self).shape_eq hclosing]

theorem viable_of_advanceAll {ts : List Token} {left : List Part}
    (hreadable : ∀ token ∈ ts, Readable token) (h : advanceAll wholeText ts = some left) :
    Viable ts := by
  have hspace : Part.token .space ∉ left := advanceAll_space (by decide) h
  obtain ⟨program, hderives⟩ := derives_least (fun token hmem => (hreadable token hmem).legible) h
  obtain ⟨text, all, htokens, hshapes⟩ := exists_text_of_derives
    (List.forall_mem_append.mpr ⟨hreadable, Lexicon.readable_least hspace⟩) hderives
  -- The text has other places than the tokens it was written for, so its program is derived anew.
  have hkinds : (all.filter (·.kind ≠ .space)).map Token.kind =
      (ts ++ left.flatMap Part.least).map Token.kind := by
    have hfirst := congrArg (List.map Prod.fst) hshapes
    rwa [List.map_map, List.map_map] at hfirst
  have hall := (advanceAll_congr hkinds wholeText).trans (advanceAll_derives hderives)
  obtain ⟨other, hother⟩ :=
    derives_least (fun token hmem => (readable_of_tokenize htokens token hmem).legible) hall
  rw [List.flatMap_nil, List.append_nil] at hother
  refine ⟨text, all, other, htokens, hother, ?_⟩
  rw [hshapes, List.map_append]
  exact List.prefix_append _ _

theorem not_viable_of_advance {before : List Token} {token : Token} {left : List Part}
    (hbefore : advanceAll wholeText before = some left) (h : advance left token.kind = none) :
    ¬ Viable (before ++ [token]) := by
  intro hviable
  obtain ⟨more, hmore⟩ := advanceAll_of_viable hviable
  rw [advanceAll_append, hbefore, Option.bind_some, advanceAll, h] at hmore
  cases hmore

theorem Viable.of_append {ts us : List Token} (h : Viable (ts ++ us)) : Viable ts := by
  obtain ⟨text, all, program, htokens, hderives, hfront⟩ := h
  refine ⟨text, all, program, htokens, hderives, List.IsPrefix.trans ?_ hfront⟩
  rw [List.map_append]
  exact List.prefix_append _ _

/-! ### Where the parser fails -/

namespace Parser

theorem blamed_comma {comma : Token} (h : comma.kind = .comma) (token : Token) :
    blamed [comma] token = comma := by
  simp [blamed, Option.filter, h]

theorem blamed_cons {first : Token} {before : List Token} {token : Token}
    (h : before = [] → first.kind ≠ .comma) : blamed (first :: before) token = blamed before token := by
  cases before with
  | nil => simp [blamed, Option.filter, h rfl]
  | cons second before => simp [blamed, List.getLast?_cons_cons]

/-- The ways in which going through some tokens can fail: behind them is a lexical error, or one of
them does not fit behind those before it. -/
inductive Diagnosis (parts : List Part) (ts : List Token) (tail : Stream' (Except Diagnostic Token)) :
    Diagnostic → Prop
  | lexical {report : Diagnostic} {left : List Part} {rest : Stream' (Except Diagnostic Token)}
      (hts : advanceAll parts ts = some left) (htail : tail = Stream'.cons (.error report) rest) :
      Diagnosis parts ts tail report
  | unfit {report : Diagnostic} {before later : List Token} {token : Token} {left : List Part}
      (hsplit : ts = before ++ token :: later) (hbefore : advanceAll parts before = some left)
      (htoken : advance left token.kind = none) (hblames : Blames (blamed before token) report) :
      Diagnosis parts ts tail report

theorem Diagnosis.cons {parts left : List Part} {first : Token} {ts : List Token}
    {tail : Stream' (Except Diagnostic Token)} {report : Diagnostic}
    (h : Diagnosis left ts tail report) (hfirst : advance parts first.kind = some left)
    (hcomma : first.kind = .comma → ∀ next later, ts = next :: later → advance left next.kind ≠ none) :
    Diagnosis parts (first :: ts) tail report := by
  cases h with
  | lexical hts htail => exact .lexical (by rw [advanceAll_cons hfirst, hts]) htail
  | @unfit before later token last hsplit hbefore htoken hblames =>
      subst hsplit
      have hsplit : first :: (before ++ token :: later) = (first :: before) ++ token :: later := rfl
      refine .unfit hsplit (by rw [advanceAll_cons hfirst, hbefore]) htoken ?_
      rw [blamed_cons]
      · exact hblames
      · rintro rfl hkind
        obtain rfl := Option.some.inj hbefore
        exact hcomma hkind token later rfl htoken

/-- A failure that comes before a budget is used up has a diagnosis. -/
theorem Fails.diagnosis {source : String} {n : Nat} {parts : List Part} {ts : List Token}
    {tail : Stream' (Except Diagnostic Token)} {failure : Failure}
    (h : Fails n parts (ts.map .ok ++ₛ tail) failure) (hlegible : ∀ token ∈ ts, token.Legible)
    (hbudget : (ts.filter (·.kind ≠ .endOfText)).length < n) (hends : Lexicon.Ends source ts tail) :
    ∃ report, failure = .report report ∧ Diagnosis parts ts tail report := by
  induction ts generalizing n parts with
  | nil =>
      cases h with
      | exhausted => exact absurd hbudget (Nat.not_lt_zero _)
      | lexical hs => exact ⟨_, rfl, .lexical rfl hs⟩
      | rejected hs | dangling hs | illegible hs | step hs => exact absurd hs hends.ne_cons_ok
  | cons first ts ih =>
      have hhead : ∀ {token rest}, (first :: ts).map .ok ++ₛ tail = Stream'.cons (.ok token) rest →
          first = token ∧ ts.map .ok ++ₛ tail = rest := cons_ok_inj
      cases h with
      | exhausted => exact absurd hbudget (Nat.not_lt_zero _)
      | lexical hs => cases (Stream'.cons_injective2 (hs : Stream'.cons _ _ = _)).1
      | @rejected _ _ _ _ token report hs hadvance hblames =>
          obtain ⟨rfl, -⟩ := hhead hs
          have hsplit : first :: ts = [] ++ first :: ts := rfl
          exact ⟨report, rfl, .unfit hsplit (advanceAll_nil parts) hadvance hblames⟩
      | @dangling _ _ _ _ rest comma token report hs hcomma hfirst hsecond hblames =>
          obtain ⟨rfl, hrest⟩ := hhead hs
          have hends' := hends.of_cons (by simp [hcomma])
          cases ts with
          | nil => exact absurd hrest hends'.ne_cons_ok
          | cons second ts =>
              obtain ⟨rfl, -⟩ := cons_ok_inj hrest
              have hsplit : first :: second :: ts = [first] ++ second :: ts := rfl
              refine ⟨report, rfl, .unfit hsplit (by rw [advanceAll_cons hfirst, advanceAll_nil]) hsecond ?_⟩
              rwa [blamed_comma hcomma]
      | illegible hs hillegible =>
          obtain ⟨rfl, -⟩ := hhead hs
          exact absurd (hlegible _ List.mem_cons_self) hillegible
      | @step _ _ left _ _ token failure hs hadvance hend hcomma later =>
          obtain ⟨rfl, rfl⟩ := hhead hs
          have hbudget' : (ts.filter (·.kind ≠ .endOfText)).length < n - 1 := by
            rw [List.filter_cons_of_pos (by simpa using hend), List.length_cons] at hbudget
            omega
          obtain ⟨report, hreport, hdiagnosis⟩ :=
            ih later (List.forall_mem_cons.mp hlegible).2 hbudget' (hends.of_cons hend)
          refine ⟨report, hreport, hdiagnosis.cons hadvance fun hkind next others hts => ?_⟩
          subst hts
          exact hcomma hkind next _ rfl

theorem Blames.report {token : Token} {report : Diagnostic} (h : Blames token report) :
    report.kind = .grammatical ∧ report.location = token.location ∧
      report.help = some ("found " ++ token.kind.describe) := by
  obtain ⟨wanted, rfl⟩ := h
  exact ⟨rfl, rfl, rfl⟩

/-- A text that is not parsed has a diagnosis; the budget that it gives is never used up. -/
theorem diagnosis_of_parse {source : String} {log : Log} {failure : Failure} {state : State}
    (h : parse source log = .error failure state) :
    ∃ report tail, failure = .report report ∧ Lexicon.Ends source (leadingTokens source) tail ∧
      Diagnosis wholeText (leadingTokens source) tail report := by
  obtain ⟨hreadable, tail, hupcoming, hends⟩ := Lexicon.leadingTokens_spec source
  have hfails : Fails ((Reader.ofString source).size + 1) wholeText
      ((leadingTokens source).map .ok ++ₛ tail) failure := hupcoming ▸ fails_of_program h
  have hbudget : ((leadingTokens source).filter (·.kind ≠ .endOfText)).length <
      (Reader.ofString source).size + 1 := by
    have hfewer : ((leadingTokens source).filter (·.kind ≠ .endOfText)).length ≤
        ((Reader.ofString source).leading.filter (·.kind ≠ .endOfText)).length :=
      (List.Sublist.filter _ List.filter_sublist).length_le
    have hmost := (Reader.ofString source).length_leading_le
    omega
  obtain ⟨report, hreport, hdiagnosis⟩ :=
    hfails.diagnosis (fun token hmem => (hreadable token hmem).legible) hbudget hends
  exact ⟨report, tail, hreport, hends, hdiagnosis⟩

/-- **Exact rejections.** A text is parsed as a program, or it is rejected. If its tokens up to the
first lexical error or up to the end are viable, there is such an error, and it is the report.
Otherwise the report is about the first token that makes them not viable, or else about the comma right
before it, if there is one. -/
theorem parse_accepts_or_reports_first_unviable (source : String) (log : Log) :
    (∃ program state, parse source log = .ok program state) ∨
    ∃ report state, parse source log = .error (.report report) state ∧
      (Viable (leadingTokens source) → tokenize source = .error report) ∧
      (¬ Viable (leadingTokens source) →
        ∃ before token later, leadingTokens source = before ++ token :: later ∧
          Viable before ∧ ¬ Viable (before ++ [token]) ∧
          report.kind = .grammatical ∧ report.location = (blamed before token).location ∧
          report.help = some ("found " ++ (blamed before token).kind.describe)) := by
  cases hparse : parse source log with
  | ok program state => exact .inl ⟨program, state, rfl⟩
  | error failure state =>
      have hreadable := (Lexicon.leadingTokens_spec source).1
      obtain ⟨report, tail, rfl, hends, hdiagnosis⟩ := diagnosis_of_parse hparse
      refine .inr ⟨report, state, rfl, ?_⟩
      cases hdiagnosis with
      | lexical hts htail =>
          have hviable := viable_of_advanceAll hreadable hts
          refine ⟨fun _ => ?_, fun hunviable => absurd hviable hunviable⟩
          rcases hends with ⟨_, _, _, -, -, hend⟩ | ⟨found, _, hfound, hend⟩
          · cases (Stream'.cons_injective2 (htail.symm.trans hend)).1
          · rw [hfound, Except.error.inj (Stream'.cons_injective2 (htail.symm.trans hend)).1]
      | @unfit before later token left hsplit hbefore htoken hblames =>
          have hunviable := not_viable_of_advance hbefore htoken
          rw [hsplit] at hreadable ⊢
          refine ⟨fun hviable => ?_, fun _ => ⟨before, token, later, rfl, ?_, hunviable, ?_⟩⟩
          · rw [← List.singleton_append, ← List.append_assoc] at hviable
            exact absurd hviable.of_append hunviable
          · exact viable_of_advanceAll (List.forall_mem_append.mp hreadable).1 hbefore
          · exact hblames.report

end Parser

end LoopScript
