import LoopScript.Proofs.BreakSites
import LoopScript.Proofs.IncrementalRuns
import LoopScript.Proofs.LineCuts

/-! Where reports point. A report that a run of a text ends with is about the first character of a token
that counts, about a character that starts no token, or about the end of the text. It shows the line that
this place is in, with the column inside it. Lines are what stands between newlines, so that behind a last
newline there is one more, which is empty; that one is not shown. -/

namespace LoopScript

namespace Text

/-! ### The pieces between newlines -/

/-- A piece without a carriage return at its end. -/
def withoutReturn (piece : List Char) : List Char :=
  if piece.getLast? = some '\r' then piece.dropLast else piece

/-- The pieces of a text between its newlines, without a carriage return right before a newline. -/
def pieces (text : List Char) : List (List Char) :=
  (text.splitOn '\n').dropLast.map withoutReturn ++ (text.splitOn '\n').getLast?.toList

theorem pieces_of_not_mem {text : List Char} (h : '\n' ∉ text) : pieces text = [text] := by
  rw [pieces, List.splitOn_eq_singleton h]
  rfl

theorem pieces_append (front rest : List Char) :
    pieces (front ++ '\n' :: rest) = (front.splitOn '\n').map withoutReturn ++ pieces rest := by
  have hne : rest.splitOn '\n' ≠ [] := List.splitOn_ne_nil _ _
  rw [pieces, List.splitOn_append_cons_self, List.dropLast_append_of_ne_nil hne, List.map_append,
    List.append_assoc, List.getLast?_append_of_ne_nil _ hne]
  rfl

theorem reverse_dropReturn (waiting : List Char) :
    (dropReturn waiting).reverse = withoutReturn waiting.reverse := by
  rw [withoutReturn, List.getLast?_reverse]
  unfold dropReturn
  split
  · simp
  · next hplain =>
      rw [if_neg]
      intro hhead
      obtain ⟨line, rfl⟩ := List.head?_eq_some_iff.mp hhead
      exact hplain line rfl

/-- Finished lines are the pieces that their newlines end. -/
theorem linesFrom_finished {waiting : List Char} (hwaiting : '\n' ∉ waiting) (front : List Char) :
    linesFrom waiting (front ++ ['\n']) =
      ((waiting.reverse ++ front).splitOn '\n').map withoutReturn := by
  induction front generalizing waiting with
  | nil =>
      have hline : '\n' ∉ waiting.reverse := by simpa using hwaiting
      rw [List.nil_append, linesFrom, if_pos rfl, List.append_nil, List.splitOn_eq_singleton hline,
        reverse_dropReturn]
      rfl
  | cons c front ih =>
      rw [List.cons_append, linesFrom]
      by_cases hc : c = '\n'
      · subst hc
        have hline : '\n' ∉ waiting.reverse := by simpa using hwaiting
        rw [if_pos rfl, List.splitOn_append_cons_self_of_not_mem hline, List.map_cons,
          ih List.not_mem_nil, reverse_dropReturn]
        rfl
      · have hlonger : '\n' ∉ c :: waiting := by
          simp [hwaiting, Ne.symm hc]
        rw [if_neg hc, ih hlonger, List.reverse_cons, List.append_assoc]
        rfl

theorem linesFrom_of_not_mem {waiting text : List Char} (htext : '\n' ∉ text) :
    linesFrom waiting text = if waiting.reverse ++ text = [] then [] else [waiting.reverse ++ text] := by
  induction text generalizing waiting with
  | nil =>
      cases waiting with
      | nil => rfl
      | cons c waiting => simp [linesFrom]
  | cons c text ih =>
      simp only [List.mem_cons, not_or] at htext
      rw [linesFrom, if_neg (Ne.symm htext.1), ih htext.2]
      simp

/-- A text is empty up to its first newline, or it has a last one. -/
theorem exists_last_newline (text : List Char) :
    '\n' ∉ text ∨ ∃ front tail, text = front ++ '\n' :: tail ∧ '\n' ∉ tail := by
  induction text with
  | nil => exact .inl List.not_mem_nil
  | cons c text ih =>
      rcases ih with hnone | ⟨front, tail, rfl, htail⟩
      · by_cases hc : c = '\n'
        · subst hc
          exact .inr ⟨[], text, rfl, hnone⟩
        · exact .inl (by simp [hnone, Ne.symm hc])
      · exact .inr ⟨c :: front, tail, rfl, htail⟩

theorem endsLine_iff_of_not_mem {text : List Char} (h : '\n' ∉ text) : EndsLine text ↔ text = [] := by
  constructor
  · intro hline
    by_contra hne
    exact h (hline.newline_mem hne)
  · exact .inl

/-- The lines of a text are its pieces, without the empty one behind a last newline. -/
theorem linesFrom_eq_pieces (text : List Char) [Decidable (EndsLine text)] :
    linesFrom [] text = if EndsLine text then (pieces text).dropLast else pieces text := by
  rcases exists_last_newline text with hnone | ⟨front, tail, rfl, htail⟩
  · rw [linesFrom_of_not_mem hnone, pieces_of_not_mem hnone, List.reverse_nil, List.nil_append]
    simp only [endsLine_iff_of_not_mem hnone]
    split <;> rfl
  · rw [linesFrom_append, linesFrom_finished List.not_mem_nil, linesFrom_of_not_mem htail, pieces_append,
      pieces_of_not_mem htail, List.dropLast_concat, List.reverse_nil, List.nil_append, List.nil_append]
    by_cases hend : tail = []
    · subst hend
      rw [if_pos rfl, if_pos (.inr ⟨front, rfl⟩), List.append_nil]
    · rw [if_neg hend, if_neg]
      intro hline
      have hlast : EndsLine (front ++ ['\n'] ++ tail) := by simpa using hline
      exact hend ((endsLine_iff_of_not_mem htail).mp hlast.of_append)

/-! ### The piece around a place -/

theorem length_splitOn (text : List Char) : (text.splitOn '\n').length = text.count '\n' + 1 := by
  induction text with
  | nil => rfl
  | cons c text ih =>
      rw [List.splitOn_cons_eq_if_modifyHead]
      by_cases hc : c = '\n'
      · subst hc
        rw [if_pos (beq_self_eq_true _), List.length_cons, ih, List.count_cons_self]
      · rw [if_neg (by simpa using hc), List.length_modifyHead, ih, List.count_cons_of_ne hc]

theorem length_pieces (text : List Char) : (pieces text).length = text.count '\n' + 1 := by
  have hne : text.splitOn '\n' ≠ [] := List.splitOn_ne_nil _ _
  rw [pieces, List.getLast?_eq_some_getLast hne, ← length_splitOn]
  simp only [List.length_append, List.length_map, List.length_dropLast, Option.toList_some,
    List.length_singleton]
  have hpos := List.length_pos_iff.mpr hne
  omega

/-- The piece around a place: what is in front of it behind the last newline, and what is behind it up to
the next newline. -/
theorem getElem?_pieces (before rest : List Char) :
    (pieces (before ++ rest))[before.count '\n']? =
      (pieces ((before.reverse.takeWhile (· ≠ '\n')).reverse ++ rest)).head? := by
  rcases exists_last_newline before with hnone | ⟨front, tail, rfl, htail⟩
  · have hall : before.reverse.takeWhile (· ≠ '\n') = before.reverse := by
      rw [List.takeWhile_eq_self_iff]
      intro c hc
      simpa using ne_of_mem_of_not_mem (List.mem_reverse.mp hc) hnone
    rw [hall, List.reverse_reverse, List.count_eq_zero.mpr hnone, List.head?_eq_getElem?]
  · have hstop : (front ++ '\n' :: tail).reverse.takeWhile (· ≠ '\n') = tail.reverse := by
      have hplain : ∀ c ∈ tail.reverse, decide (c ≠ '\n') = true := by
        intro c hc
        simpa using ne_of_mem_of_not_mem (List.mem_reverse.mp hc) htail
      rw [List.reverse_append, List.reverse_cons, List.append_assoc,
        List.takeWhile_append_of_pos hplain]
      simp
    have hindex : (front ++ '\n' :: tail).count '\n' = ((front.splitOn '\n').map withoutReturn).length := by
      rw [List.count_append, List.count_cons_self, List.count_eq_zero.mpr htail, List.length_map,
        length_splitOn]
    rw [hstop, List.reverse_reverse, hindex, List.append_assoc, List.cons_append, pieces_append,
      List.getElem?_append_right (Nat.le_refl _), Nat.sub_self, List.head?_eq_getElem?]

theorem exists_withoutReturn {c : Char} (hc : c ≠ '\r') (tail body : List Char) :
    ∃ more, withoutReturn (tail ++ c :: body) = tail ++ c :: more := by
  rw [withoutReturn]
  split
  · next hlast =>
      rcases List.eq_nil_or_concat body with rfl | ⟨init, last, rfl⟩
      · rw [List.getLast?_concat] at hlast
        exact absurd (Option.some.inj hlast) hc
      · refine ⟨init, ?_⟩
        rw [List.concat_eq_append, ← List.cons_append, ← List.append_assoc, List.dropLast_concat]
  · exact ⟨body, rfl⟩

/-- A place that is not at a blank is inside its piece, or right behind it at the end of the text. -/
theorem exists_head?_pieces {tail rest : List Char} (htail : '\n' ∉ tail)
    (hrest : ∀ c more, rest = c :: more → isBlank c = false) :
    ∃ piece, (pieces (tail ++ rest)).head? = some piece ∧ tail.length ≤ piece.length ∧
      piece[tail.length]? = rest.head? := by
  by_cases hmem : '\n' ∈ rest
  · obtain ⟨body, later, rfl, hbody⟩ := List.eq_append_cons_of_mem hmem
    cases body with
    | nil => exact absurd (hrest _ _ rfl) (by decide)
    | cons c body =>
        have hreturn : c ≠ '\r' := by
          rintro rfl
          exact absurd (hrest _ _ rfl) (by decide)
        have hline : '\n' ∉ tail ++ c :: body := by
          simpa [htail] using hbody
        obtain ⟨more, hmore⟩ := exists_withoutReturn hreturn tail body
        refine ⟨tail ++ c :: more, ?_, by simp, by simp⟩
        rw [← List.append_assoc, pieces_append, List.splitOn_eq_singleton hline, ← hmore]
        rfl
  · have hwhole : '\n' ∉ tail ++ rest := by simp [htail, hmem]
    refine ⟨tail ++ rest, by rw [pieces_of_not_mem hwhole]; rfl, by simp, ?_⟩
    rw [List.getElem?_append_right (Nat.le_refl _), Nat.sub_self, List.head?_eq_getElem?]

/-- Behind finished lines there is no line to be shown. -/
theorem lineAt?_at_end {source : String} (hline : EndsLine source.toList) :
    lineAt? source (1 + source.toList.count '\n') = none := by
  have hlength : (lines source).length = source.toList.count '\n' := length_lines hline
  rw [Nat.add_comm, lineAt?, List.getElem?_eq_none (by omega)]

/-- The line of any other place is the piece around it. -/
theorem lineAt?_at_place {source : String} {before rest : List Char} (hsplit : source.toList = before ++ rest)
    (hplace : rest ≠ [] ∨ ¬ EndsLine source.toList) :
    lineAt? source (1 + before.count '\n') =
      (pieces source.toList)[before.count '\n']?.map String.ofList := by
  classical
  rw [Nat.add_comm, lineAt?, lines, List.getElem?_map, linesFrom_eq_pieces]
  split
  · next hline =>
      have hrest : rest ≠ [] := hplace.resolve_right (not_not_intro hline)
      have hnewline : 0 < rest.count '\n' := by
        rw [hsplit] at hline
        exact List.count_pos_iff.mpr (hline.of_append.newline_mem hrest)
      rw [List.getElem?_dropLast, if_pos]
      rw [length_pieces, hsplit, List.count_append]
      omega
  · rfl

end Text

namespace Lexicon

open Token (Kind)

/-! ### What is reported -/

/-- The place between two parts of a text, when the first is cut into tokens: there is the first character
of a token that counts, a character that starts no token, or the end of the text. -/
inductive Mark : (before rest : List Char) → Prop
  | token {before lexeme behind : List Char} {kind : Kind} {ts : List Token}
      (hcut : Segments (lexeme ++ behind) [] before ts) (hmunch : Munch (lexeme ++ behind) lexeme kind)
      (hkind : kind ≠ .space) : Mark before (lexeme ++ behind)
  | unexpected {before behind : List Char} {c : Char} {ts : List Token}
      (hcut : Segments (c :: behind) [] before ts) (hstuck : Stuck (c :: behind)) : Mark before (c :: behind)
  | ending {before : List Char} {ts : List Token} (hcut : Segments [] [] before ts) : Mark before []

theorem Mark.head_not_blank {before rest : List Char} (h : Mark before rest) :
    ∀ c more, rest = c :: more → Text.isBlank c = false := by
  intro c more hrest
  cases h with
  | @token lexeme behind kind _ hcut hmunch hkind =>
      obtain ⟨d, run, rfl⟩ := List.exists_cons_of_ne_nil hmunch.lexical.ne_nil
      obtain ⟨rfl, -⟩ := List.cons.inj hrest
      exact (Bool.or_eq_false_iff.mp (hmunch.lexical.head_not_blank hkind)).1
  | @unexpected behind d _ hcut hstuck =>
      obtain ⟨rfl, -⟩ := List.cons.inj hrest
      by_contra hblank
      have hwhite : Blanks [d] := .white (by simpa using hblank)
      exact hstuck [d] .space (.blanks hwhite) (List.prefix_append [d] behind)
  | ending => cases hrest

/-- One more lexeme is cut off. -/
theorem Segments.concat {start before lexeme behind : List Char} {kind : Kind} {ts : List Token}
    (h : Segments (lexeme ++ behind) start before ts) (hmunch : Munch (lexeme ++ behind) lexeme kind) :
    ∃ us, Segments behind start (before ++ lexeme) us := by
  induction h with
  | @nil start =>
      have hlast : Segments behind start (lexeme ++ []) [tokenOf start lexeme kind] :=
        .cons (by rwa [List.nil_append]) .nil
      rw [List.append_nil] at hlast
      exact ⟨_, hlast⟩
  | @cons start first cut kind' ts hfirst _ ih =>
      obtain ⟨us, hus⟩ := ih
      have hnext : Munch (first ++ (cut ++ lexeme ++ behind)) first kind' := by
        rwa [List.append_assoc cut]
      rw [List.append_assoc]
      exact ⟨_, .cons hnext hus⟩

/-- The tokens that count stand at such places. -/
theorem Segments.exists_mark {behind before cut : List Char} {ts us : List Token} {token : Token}
    (hcut : Segments (cut ++ behind) [] before us) (h : Segments behind before cut ts)
    (hmem : token ∈ ts.filter Token.isSignificant) :
    ∃ front rest, before ++ (cut ++ behind) = front ++ rest ∧ Mark front rest ∧ rest ≠ [] ∧
      token.location = placeAfter front := by
  induction h generalizing us with
  | nil => exact absurd hmem List.not_mem_nil
  | @cons before lexeme cut kind ts hmunch _ ih =>
      rw [List.append_assoc] at hcut ⊢
      obtain ⟨hmem, hsignificant⟩ := List.mem_filter.mp hmem
      rcases List.mem_cons.mp hmem with rfl | hmem
      · have hkind : kind ≠ .space := of_decide_eq_true hsignificant
        refine ⟨before, lexeme ++ (cut ++ behind), rfl, .token hcut hmunch hkind, ?_, rfl⟩
        exact List.append_ne_nil_of_left_ne_nil hmunch.lexical.ne_nil _
      · obtain ⟨vs, hvs⟩ := hcut.concat hmunch
        rw [← List.append_assoc]
        exact ih hvs (List.mem_filter.mpr ⟨hmem, hsignificant⟩)

theorem exists_mark_of_mem_leadingTokens {source : String} {token : Token}
    (hmem : token ∈ leadingTokens source) :
    ∃ before rest, source.toList = before ++ rest ∧ Mark before rest ∧
      token.location = placeAfter before := by
  obtain ⟨cut, behind, ts, hsplit, hsegments, hend⟩ := exists_segments [] source.toList
  have hstart : Reader.ofString source = readerAt [] (cut ++ behind) := by
    rw [← hsplit]
    rfl
  rw [leadingTokens, hstart, leading_of_segments hsegments, List.filter_append, List.mem_append] at hmem
  rcases hmem with hmem | hmem
  · obtain ⟨before, rest, hcut, hmark, -, hplace⟩ := Segments.exists_mark .nil hsegments hmem
    exact ⟨before, rest, hsplit.trans hcut, hmark, hplace⟩
  · rcases hend with rfl | ⟨c, later, rfl, hstuck⟩
    · have hleading : (readerAt ([] ++ cut) []).leading = [endToken cut] := by
        rw [Reader.leading_eq]
        rfl
      rw [hleading] at hmem
      obtain rfl := List.mem_singleton.mp (List.mem_filter.mp hmem).1
      exact ⟨cut, [], hsplit, .ending hsegments, rfl⟩
    · rw [Reader.leading_eq, next_of_stuck hstuck] at hmem
      exact absurd hmem List.not_mem_nil

/-- A lexical error is about a character that starts no token. -/
theorem exists_mark_of_tokenize_error {source : String} {report : Diagnostic}
    (h : tokenize source = .error report) :
    ∃ before rest, source.toList = before ++ rest ∧ Mark before rest ∧
      report.location = placeAfter before ∧ report.sourceLine = none := by
  obtain ⟨cut, behind, ts, hsplit, hsegments, hend⟩ := exists_segments [] source.toList
  have hstart : tokenize source = (readerAt [] source.toList).tokens := rfl
  rcases hend with rfl | ⟨c, later, rfl, hstuck⟩
  · rw [hstart, hsplit, List.append_nil, tokens_at_end hsegments] at h
    cases h
  · rw [hstart, hsplit, tokens_of_stuck hsegments hstuck] at h
    obtain rfl := Except.error.inj h
    exact ⟨cut, c :: later, hsplit, .unexpected hsegments hstuck, rfl, rfl⟩

theorem exists_mark_of_mem_bodyTokens {source : String} (hlexed : Lexed source) {token : Token}
    (hmem : token ∈ bodyTokens source) :
    ∃ before rest, source.toList = before ++ rest ∧ Mark before rest ∧ rest ≠ [] ∧
      token.location = placeAfter before := by
  obtain ⟨ts, hts⟩ := lexed_iff.mp hlexed
  rw [bodyTokens_of_segments hts] at hmem
  obtain ⟨before, rest, hsplit, hmark, hrest, hplace⟩ := Segments.exists_mark .nil hts hmem
  rw [List.nil_append, List.append_nil] at hsplit
  exact ⟨before, rest, hsplit, hmark, hrest, hplace⟩

end Lexicon

/-! ### Failures of parsing, of the label check and of running -/

namespace Parser

open Lexicon (Mark placeAfter)

theorem blamed_mem (before : List Token) (token : Token) (later : List Token) :
    blamed before token ∈ before ++ token :: later := by
  unfold blamed
  cases hlast : before.getLast?.filter (·.kind = .comma) with
  | none => exact List.mem_append_right _ List.mem_cons_self
  | some comma =>
      have hcomma := (Option.filter_eq_some_iff.mp hlast).1
      exact List.mem_append_left _ (List.mem_of_getLast? hcomma)

theorem exists_mark_of_parse_error {source : String} {log : Log} {report : Diagnostic} {state : State}
    (h : parse source log = .error (.report report) state) :
    ∃ before rest, source.toList = before ++ rest ∧ Mark before rest ∧
      report.location = placeAfter before ∧ report.sourceLine = none := by
  obtain ⟨found, tail, hfound, hends, hdiagnosis⟩ := diagnosis_of_parse h
  obtain rfl := Failure.report.inj hfound
  cases hdiagnosis with
  | lexical _ htail =>
      rcases hends with ⟨_, _, _, -, -, hend⟩ | ⟨other, _, hother, hend⟩
      · cases (Stream'.cons_injective2 (htail.symm.trans hend)).1
      · obtain rfl := Except.error.inj (Stream'.cons_injective2 (htail.symm.trans hend)).1
        exact Lexicon.exists_mark_of_tokenize_error hother
  | @unfit before later token left hsplit _ _ hblames =>
      have hmem : blamed before token ∈ leadingTokens source := by
        rw [hsplit]
        exact blamed_mem before token later
      obtain ⟨front, rest, hcut, hmark, hplace⟩ := Lexicon.exists_mark_of_mem_leadingTokens hmem
      obtain ⟨wanted, rfl⟩ := hblames
      exact ⟨front, rest, hcut, hmark, hplace, rfl⟩

/-- Reports on BREAKs are about tokens. -/
theorem location_mem_of_errors {source : String} {log : Log} {program : Program} {state : State}
    (hparse : parse source log = .ok program state) {report : Diagnostic}
    (hmem : report ∈ LabelCheck.errors program) :
    report.location ∈ (bodyTokens source).map Token.location := by
  have hbody := (parse_eq_ok_iff_bodyTokens.mp ⟨state, hparse⟩).2
  exact (LabelCheck.location_sublist_of_block [] hbody).subset (List.mem_map_of_mem hmem)

/-- A run reports about tokens. If all places but those of tokens are moved, the program stays as it is,
and so do its reports. -/
theorem location_mem_of_runs {source : String} {log : Log} {program : Program} {state : State}
    (hparse : parse source log = .ok program state) {machine after : Machine} {report : Diagnostic}
    (h : Exec.Runs (.block program.body) machine (.error report after)) :
    report.location ∈ (bodyTokens source).map Token.location := by
  obtain ⟨ts, hsegments, hbody⟩ := parse_eq_ok_iff_segments.mp ⟨state, hparse⟩
  rw [Lexicon.bodyTokens_of_segments hsegments]
  let places := (ts.filter Token.isSignificant).map Token.location
  have hfixed : Stmt.relocateBlock (fun place => if place ∈ places then place else place.lower 1)
      program.body = program.body := by
    apply relocateBlock_of_segments hsegments hbody
    intro token hmem
    exact if_pos (List.mem_map_of_mem hmem)
  have hplace := Exec.location_of_runs hfixed h
  by_contra hnone
  rw [if_neg hnone] at hplace
  have hline := congrArg Location.line hplace
  exact absurd hline (Nat.succ_ne_self _)

end Parser

/-! ### Reports with their lines -/

namespace Diagnostic

open Lexicon (Mark placeAfter)

/-- A report shows a place between two parts of a text, as it is when its line was added: it is in this
file, and its line is shown unless it is the empty one behind a last newline. What the column points at in
the line is the first character behind the place; only at the end of the text there is none. -/
structure PointsAt (report : Diagnostic) (file : Option String) (source : String)
    (before rest : List Char) : Prop where
  isSplit : source.toList = before ++ rest
  location_eq : report.location = { placeAfter before with file := file }
  sourceLine_eq_none : report.sourceLine = none ↔ rest = [] ∧ Text.EndsLine source.toList
  sourceLine_eq : ∀ line, report.sourceLine = some line →
    (Text.pieces source.toList)[report.location.line - 1]? = some line.toList ∧
      report.location.column - 1 ≤ line.length ∧ line.toList[report.location.column - 1]? = rest.head?

/-- A place in a text has its line added. -/
theorem pointsAt_attachSource {source : String} {report : Diagnostic} {before rest : List Char}
    (file : Option String) (hsplit : source.toList = before ++ rest) (hmark : Mark before rest)
    (hplace : report.location = placeAfter before) (hbare : rest = [] → report.sourceLine = none) :
    (report.attachSource file source).PointsAt file source before rest := by
  have hknown : report.location.isKnown = true := by
    rw [hplace]
    exact decide_eq_true (Nat.lt_of_lt_of_le Nat.zero_lt_one (Nat.le_add_right 1 _))
  have hlocation : (report.attachSource file source).location = { placeAfter before with file := file } := by
    rw [attachSource, if_pos hknown, hplace]
    rfl
  have hshown : (report.attachSource file source).sourceLine =
      (Text.lineAt? source (1 + before.count '\n') <|> report.sourceLine) := by
    rw [attachSource, if_pos hknown, hplace]
    rfl
  let tail := (before.reverse.takeWhile (· ≠ '\n')).reverse
  have htail : '\n' ∉ tail := by
    intro hmem
    have hplain := List.mem_takeWhile_imp (List.mem_reverse.mp hmem)
    simp at hplain
  obtain ⟨piece, hpiece, hlength, hcolumn⟩ := Text.exists_head?_pieces htail hmark.head_not_blank
  have haround : (Text.pieces source.toList)[before.count '\n']? = some piece := by
    rw [hsplit, Text.getElem?_pieces]
    exact hpiece
  by_cases hend : rest = [] ∧ Text.EndsLine source.toList
  · have hnone : (report.attachSource file source).sourceLine = none := by
      have hwhole : before = source.toList := by rw [hsplit, hend.1, List.append_nil]
      rw [hshown, hwhole, Text.lineAt?_at_end hend.2, hbare hend.1]
      rfl
    refine ⟨hsplit, hlocation, ⟨fun _ => hend, fun _ => hnone⟩, fun line hline => ?_⟩
    rw [hnone] at hline
    cases hline
  · have hsome : (report.attachSource file source).sourceLine = some (String.ofList piece) := by
      rw [hshown, Text.lineAt?_at_place hsplit (not_and_or.mp hend), haround]
      rfl
    refine ⟨hsplit, hlocation, ⟨fun hnone => ?_, fun h => absurd h hend⟩, fun line hline => ?_⟩
    · rw [hsome] at hnone
      cases hnone
    · obtain rfl := Option.some.inj (hsome.symm.trans hline)
      have hline : (report.attachSource file source).location.line - 1 = before.count '\n' := by
        rw [hlocation]
        exact Nat.add_sub_cancel_left 1 _
      have hindex : (report.attachSource file source).location.column - 1 = tail.length := by
        rw [hlocation, List.length_reverse]
        exact Nat.add_sub_cancel_left 1 _
      rw [hline, hindex, String.toList_ofList, String.length_ofList]
      exact ⟨haround, hlength, hcolumn⟩

end Diagnostic

namespace Interpreter

open Lexicon (Mark placeAfter)

/-- A run fails as its text is parsed, as its labels are checked, or as its program is run, and the report
gets its line. -/
theorem exists_raised_of_runSource {fuel : Nat} {source : String} {interpreter after : Interpreter}
    {report : Diagnostic} (h : interpreter.runSource fuel source = some (.error report, after)) :
    ∃ raised, report = raised.attachSource interpreter.sourceFile source ∧
      ((∃ state, Parser.parse source interpreter.machine.log = .error (.report raised) state) ∨
        ∃ program state, Parser.parse source interpreter.machine.log = .ok program state ∧
          (raised ∈ LabelCheck.errors program ∨
            ∃ machine last, Exec.Runs (.block program.body) machine (.error raised last))) := by
  rcases runSource_cases fuel source interpreter with
    ⟨_, -, hnone⟩ | ⟨raised, state, _, hparse, -, hsome⟩ |
    ⟨program, state, raised, others, _, hparse, -, herrors, -, hsome⟩ |
    ⟨program, state, machine, hparse, -, -, hexecute⟩
  · rw [hnone] at h
    cases h
  · rw [hsome] at h
    obtain ⟨hreport, -⟩ := Prod.mk.inj (Option.some.inj h)
    exact ⟨raised, (Except.error.inj hreport).symm, .inl ⟨state, hparse⟩⟩
  · rw [hsome] at h
    obtain ⟨hreport, -⟩ := Prod.mk.inj (Option.some.inj h)
    have hmem : raised ∈ LabelCheck.errors program := herrors ▸ List.mem_cons_self
    exact ⟨raised, (Except.error.inj hreport).symm, .inr ⟨program, state, hparse, .inl hmem⟩⟩
  · rw [hexecute] at h
    obtain ⟨⟨result, last⟩, hrun, hpair⟩ := Option.map_eq_some_iff.mp h
    obtain ⟨outcome, hruns, hresult, hlast⟩ := execute_iff.mp ⟨fuel, hrun⟩
    obtain ⟨hattached, -⟩ := Prod.mk.inj hpair
    cases result with
    | ok => cases hattached
    | error raised =>
        obtain ⟨final, rfl⟩ := Exec.finish_eq_error hresult
        have hfile : last.sourceFile = interpreter.sourceFile := by
          rw [← hlast]
          rfl
        refine ⟨raised, ?_, .inr ⟨program, state, hparse, .inr ⟨_, final, hruns⟩⟩⟩
        rw [← hfile]
        exact (Except.error.inj hattached).symm

/-- **Reports point into the text.** A report that a run ends with is about the first character of a token
that counts, a character that starts no token, or the end of the text; it names the file of the
interpreter, and shows this place in its line. If the text is parsed, the report always shows a line. -/
theorem reports_point_into_the_text (interpreter after : Interpreter) (fuel : Nat) (source : String)
    (report : Diagnostic) (hrun : interpreter.runSource fuel source = some (.error report, after)) :
    ∃ before rest, Mark before rest ∧ report.PointsAt interpreter.sourceFile source before rest ∧
      1 ≤ report.location.line ∧ 1 ≤ report.location.column ∧
      ∀ program state, Parser.parse source interpreter.machine.log = .ok program state →
        rest ≠ [] ∧ report.sourceLine ≠ none := by
  obtain ⟨raised, rfl, ⟨state, hfails⟩ | ⟨program, state, hparse, hraised⟩⟩ :=
    exists_raised_of_runSource hrun
  · obtain ⟨before, rest, hsplit, hmark, hplace, hbare⟩ := Parser.exists_mark_of_parse_error hfails
    have hpoints := Diagnostic.pointsAt_attachSource interpreter.sourceFile hsplit hmark hplace fun _ => hbare
    refine ⟨before, rest, hmark, hpoints, ?_, ?_, fun program state hparse => ?_⟩
    · rw [hpoints.location_eq]
      exact Nat.le_add_right 1 _
    · rw [hpoints.location_eq]
      exact Nat.le_add_right 1 _
    · rw [hparse] at hfails
      cases hfails
  · have hmem : raised.location ∈ (bodyTokens source).map Token.location := by
      rcases hraised with herrors | ⟨machine, last, hruns⟩
      · exact Parser.location_mem_of_errors hparse herrors
      · exact Parser.location_mem_of_runs hparse hruns
    obtain ⟨token, htoken, hlocation⟩ := List.mem_map.mp hmem
    have hlexed := (Parser.parse_eq_ok_iff_bodyTokens.mp ⟨state, hparse⟩).1
    obtain ⟨before, rest, hsplit, hmark, hrest, hplace⟩ :=
      Lexicon.exists_mark_of_mem_bodyTokens hlexed htoken
    have hpoints := Diagnostic.pointsAt_attachSource interpreter.sourceFile hsplit hmark
      (hlocation.symm.trans hplace) fun hnil => absurd hnil hrest
    refine ⟨before, rest, hmark, hpoints, ?_, ?_, fun _ _ _ => ⟨hrest, ?_⟩⟩
    · rw [hpoints.location_eq]
      exact Nat.le_add_right 1 _
    · rw [hpoints.location_eq]
      exact Nat.le_add_right 1 _
    · intro hnone
      exact hrest (hpoints.sourceLine_eq_none.mp hnone).1

/-- A name without a number, in a line with a carriage return, which is not shown. -/
theorem reports_point_into_the_text_unbound :
    ∃ report after, (fresh {} none {} {}).runSource 9 "PRINT x;\r\n" = some (.error report, after) ∧
      report.location = ⟨1, 7, none⟩ ∧ report.sourceLine = some "PRINT x;" ∧
      ∃ before rest, Mark before rest ∧ report.PointsAt none "PRINT x;\r\n" before rest := by
  have haccepts : Accepts "PRINT x;\r\n" { body := [.print ["x"] ⟨1, 7, none⟩] } :=
    ⟨⟨⟨⟨[], ⟨2, 1, none⟩, []⟩, {}⟩, by cbv⟩, rfl⟩
  have hseen : seen ((fresh {} none {} {}).runSource 9 "PRINT x;\r\n") =
      some (.error (((Diagnostic.Cause.unboundIdentifier "x" []).reportAt ⟨1, 7, none⟩).attachSource none
        "PRINT x;\r\n"), (fresh {} none {} {}).machine, none) := by
    rw [seen_runSource haccepts]
    rfl
  obtain ⟨⟨result, after⟩, hrun, hpair⟩ := Option.map_eq_some_iff.mp hseen
  obtain ⟨rfl, -⟩ := Prod.mk.inj hpair
  have htext : Text.lineAt? "PRINT x;\r\n" 1 = some "PRINT x;" := by decide
  obtain ⟨before, rest, hmark, hpoints, -⟩ := reports_point_into_the_text _ _ 9 _ _ hrun
  exact ⟨_, after, hrun, rfl, congrArg (· <|> none) htext, before, rest, hmark, hpoints⟩

end Interpreter
end LoopScript
