import LoopScript.Proofs.Acceptance
import LoopScript.Proofs.Relocation
import LoopScript.Proofs.ValidPrefix

/-! The seam between two texts, when the first is empty or ends with a newline. Nothing reaches over
it: no word, number or operator contains a newline, a comment ends there, and the next text starts in
the first column of a line of its own. Only the blanks on its two sides become one token. So the lines
of the joined text are those of both, its tokens that count are those of both, and its program is the
one program behind the other, each time with the places of the second moved down. -/

namespace LoopScript

/-- A text without a line that is still to be ended. -/
def Text.EndsLine (text : List Char) : Prop := text = [] ∨ ∃ front, text = front ++ ['\n']

/-- The place that is so many lines further down. -/
def Location.lower (lines : Nat) (place : Location) : Location :=
  { place with line := place.line + lines }

namespace Text

theorem EndsLine.of_append {front text : List Char} (h : EndsLine (front ++ text)) : EndsLine text := by
  rcases h with hnil | ⟨line, hline⟩
  · exact .inl (List.append_eq_nil_iff.mp hnil).2
  · rcases List.eq_nil_or_concat text with rfl | ⟨init, last, rfl⟩
    · exact .inl rfl
    · rw [List.concat_eq_append, ← List.append_assoc] at hline
      obtain ⟨-, hlast⟩ := List.append_inj' hline rfl
      exact .inr ⟨init, by rw [List.concat_eq_append, hlast]⟩

theorem EndsLine.newline_mem {text : List Char} (h : EndsLine text) (hne : text ≠ []) :
    '\n' ∈ text := by
  rcases h with rfl | ⟨front, rfl⟩
  · exact absurd rfl hne
  · simp

/-! ### Lines -/

theorem linesFrom_append (waiting front rest : List Char) :
    linesFrom waiting (front ++ '\n' :: rest) =
      linesFrom waiting (front ++ ['\n']) ++ linesFrom [] rest := by
  induction front generalizing waiting with
  | nil =>
      rw [List.nil_append, List.nil_append, linesFrom, linesFrom, if_pos rfl, if_pos rfl]
      rfl
  | cons c front ih =>
      rw [List.cons_append, List.cons_append, linesFrom, linesFrom]
      by_cases hc : c = '\n'
      · rw [if_pos hc, if_pos hc, ih, List.cons_append]
      · rw [if_neg hc, if_neg hc, ih]

theorem length_linesFrom (waiting front : List Char) :
    (linesFrom waiting (front ++ ['\n'])).length = (front ++ ['\n']).count '\n' := by
  induction front generalizing waiting with
  | nil =>
      rw [List.nil_append, linesFrom, if_pos rfl]
      rfl
  | cons c front ih =>
      rw [List.cons_append, linesFrom]
      by_cases hc : c = '\n'
      · rw [if_pos hc, List.length_cons, ih, hc, List.count_cons_self]
      · rw [if_neg hc, ih, List.count_cons_of_ne hc]

theorem lines_append {first : String} (h : EndsLine first.toList) (second : String) :
    lines (first ++ second) = lines first ++ lines second := by
  rw [lines, lines, lines, String.toList_append, ← List.map_append]
  rcases h with hnil | ⟨front, hfront⟩
  · rw [hnil]
    rfl
  · rw [hfront, List.append_assoc, List.singleton_append, linesFrom_append]

theorem length_lines {text : String} (h : EndsLine text.toList) :
    (lines text).length = text.toList.count '\n' := by
  rw [lines, List.length_map]
  rcases h with hnil | ⟨front, hfront⟩
  · rw [hnil]
    rfl
  · rw [hfront, length_linesFrom]

/-- The lines of the second text are further down. -/
theorem lineAt?_append_lower {first : String} (h : EndsLine first.toList) (second : String)
    {number : Nat} (hnumber : 0 < number) :
    lineAt? (first ++ second) (number + first.toList.count '\n') = lineAt? second number := by
  obtain ⟨index, rfl⟩ : ∃ index, number = index + 1 := ⟨number - 1, by omega⟩
  have hright : index + first.toList.count '\n' = (lines first).length + index := by
    rw [length_lines h]
    omega
  rw [Nat.add_right_comm, lineAt?, lineAt?, lines_append h, hright, List.getElem?_append_right (by omega)]
  rw [Nat.add_sub_cancel_left]

/-- The lines of the first text stay where they are. -/
theorem lineAt?_append_of_le {first : String} (h : EndsLine first.toList) (second : String)
    {number : Nat} (hnumber : number ≤ first.toList.count '\n') :
    lineAt? (first ++ second) number = lineAt? first number := by
  cases number with
  | zero => rfl
  | succ index =>
      have hleft : index < (lines first).length := by
        rw [length_lines h]
        omega
      rw [lineAt?, lineAt?, lines_append h, List.getElem?_append_left hleft]

end Text

namespace Lexicon

open Text (EndsLine isBlank)
open Token (Kind Lexeme blankRun)

/-! ### Places -/

/-- Behind finished lines, places are further down and in the same columns. -/
theorem placeAfter_append {lines : List Char} (h : EndsLine lines) (before : List Char) :
    placeAfter (lines ++ before) = (placeAfter before).lower (lines.count '\n') := by
  have hstop : lines.reverse.takeWhile (· ≠ '\n') = [] := by
    rcases h with rfl | ⟨front, rfl⟩
    · rfl
    · simp
  have hcolumn : (lines ++ before).reverse.takeWhile (· ≠ '\n') =
      before.reverse.takeWhile (· ≠ '\n') := by
    rw [List.reverse_append, List.takeWhile_append, hstop, List.append_nil]
    split
    · next hall => exact (List.takeWhile_prefix _).eq_of_length hall |>.symm
    · rfl
  have hline : 1 + (lines ++ before).count '\n' = 1 + before.count '\n' + lines.count '\n' := by
    rw [List.count_append]
    omega
  rw [placeAfter, hcolumn, hline]
  rfl

/-- Behind finished lines, a text is cut as before, and its tokens are further down. -/
theorem Segments.lower {lines behind before cut : List Char} {ts : List Token} (hlines : EndsLine lines)
    (h : Segments behind before cut ts) :
    Segments behind (lines ++ before) cut
      (ts.map (Token.relocate (Location.lower (lines.count '\n')))) := by
  induction h with
  | nil => exact .nil
  | @cons before lexeme cut kind ts hmunch _ ih =>
      have htoken : (tokenOf before lexeme kind).relocate (Location.lower (lines.count '\n')) =
          tokenOf (lines ++ before) lexeme kind := by
        rw [tokenOf, tokenOf, placeAfter_append hlines]
        rfl
      rw [List.map_cons, htoken]
      refine .cons hmunch ?_
      rwa [List.append_assoc]

/-- A token starts behind a front of the text that is not all of it. -/
theorem Segments.exists_front {behind before cut : List Char} {ts : List Token} {token : Token}
    (h : Segments behind before cut ts) (hmem : token ∈ ts) :
    ∃ front back, cut = front ++ back ∧ back ≠ [] ∧ token.location = placeAfter (before ++ front) := by
  induction h with
  | nil => exact absurd hmem List.not_mem_nil
  | @cons before lexeme cut kind ts hmunch _ ih =>
      rcases List.mem_cons.mp hmem with rfl | hmem
      · refine ⟨[], lexeme ++ cut, rfl, ?_, by rw [List.append_nil]; rfl⟩
        exact List.append_ne_nil_of_left_ne_nil hmunch.lexical.ne_nil cut
      · obtain ⟨front, back, rfl, hback, hplace⟩ := ih hmem
        exact ⟨lexeme ++ front, back, (List.append_assoc _ _ _).symm, hback,
          by rw [hplace, List.append_assoc]⟩

/-- The tokens of finished lines are in these lines. -/
theorem Segments.line_bounds {behind cut : List Char} {ts : List Token} {token : Token}
    (h : Segments behind [] cut ts) (hmem : token ∈ ts) :
    1 ≤ token.location.line ∧ (EndsLine cut → token.location.line ≤ cut.count '\n') := by
  obtain ⟨front, back, rfl, hback, hplace⟩ := h.exists_front hmem
  rw [hplace]
  refine ⟨Nat.le_add_right 1 _, fun hline => ?_⟩
  have hnewline : 0 < back.count '\n' := List.count_pos_iff.mpr (hline.of_append.newline_mem hback)
  rw [List.count_append]
  show 1 + front.count '\n' ≤ _
  omega

/-! ### Lexemes in front of the seam -/

/-- A run that lacks a character goes no further than in front of it. -/
theorem isPrefix_of_not_mem {run front rest : List Char} {c : Char} (h : run <+: front ++ c :: rest)
    (hc : c ∉ run) : run <+: front := by
  rcases List.prefix_or_prefix_of_prefix h (List.prefix_append front (c :: rest)) with hrun | ⟨more, rfl⟩
  · exact hrun
  · cases more with
    | nil => simp
    | cons d more =>
        obtain ⟨left, hleft⟩ := h
        rw [List.append_assoc] at hleft
        obtain ⟨rfl, -⟩ := List.cons.inj (List.append_cancel_left hleft)
        exact absurd (by simp) hc

/-- A newline behind a lexeme that counts ends it, whatever comes later. -/
theorem Munch.before_newline {lexeme cut : List Char} {kind : Kind} (h : Munch (lexeme ++ cut) lexeme kind)
    (hkind : kind ≠ .space) (hcut : '\n' ∈ cut) (more : List Char) :
    Munch (lexeme ++ (cut ++ more)) lexeme kind where
  isFront := List.prefix_append _ _
  lexical := h.lexical
  longest := by
    intro other kind' hother hlexical
    obtain ⟨c, run, rfl⟩ := List.exists_cons_of_ne_nil h.lexical.ne_nil
    obtain ⟨d, other, rfl⟩ := List.exists_cons_of_ne_nil hlexical.ne_nil
    have hkind' : kind' ≠ .space := by
      rintro rfl
      obtain ⟨left, hleft⟩ := hother
      obtain ⟨rfl, -⟩ := List.cons.inj hleft
      have hblank := (blanks_of_lexical hlexical).head
      rw [h.lexical.head_not_blank hkind] at hblank
      cases hblank
    obtain ⟨front, back, rfl⟩ := List.append_of_mem hcut
    have hplain := hlexical.blank_not_mem hkind' (by decide : isBlank '\n' = true)
    rw [List.append_assoc, List.cons_append, ← List.append_assoc] at hother
    have hfront : d :: other <+: c :: run ++ front := isPrefix_of_not_mem hother hplain
    refine h.longest _ _ ?_ hlexical
    rw [← List.append_assoc]
    exact hfront.trans (List.prefix_append _ _)

/-- A run of blanks that is ended inside a text is ended there also in a longer text. -/
theorem blankRun_append_of_rest {inComment : Bool} {text run rest : List Char} {c : Char}
    (h : blankRun inComment text = (run, c :: rest)) (more : List Char) :
    blankRun inComment (text ++ more) = (run, c :: rest ++ more) := by
  fun_induction blankRun inComment text generalizing run with
  | case1 => cases h
  | case2 d text taken left hrun ih =>
      obtain ⟨rfl, rfl⟩ := Prod.mk.inj h
      rw [List.cons_append, blankRun, ih hrun]
  | case3 text taken left hrun ih =>
      obtain ⟨rfl, rfl⟩ := Prod.mk.inj h
      rw [List.cons_append, blankRun, if_pos rfl, ih hrun]
  | case4 d text hhash hblank taken left hrun ih =>
      obtain ⟨rfl, rfl⟩ := Prod.mk.inj h
      rw [List.cons_append, blankRun, if_neg hhash, if_pos hblank, ih hrun]
  | case5 d text hhash hblank =>
      obtain ⟨rfl, hrest⟩ := Prod.mk.inj h
      rw [List.cons_append, blankRun, if_neg hhash, if_neg hblank, ← hrest]
      rfl

/-- No comment goes on behind a newline. -/
theorem blankRun_append_of_newline {inComment : Bool} {front : List Char}
    (h : blankRun inComment (front ++ ['\n']) = (front ++ ['\n'], [])) (more : List Char) :
    blankRun inComment (front ++ '\n' :: more) =
      (front ++ '\n' :: (blankRun false more).1, (blankRun false more).2) := by
  induction front generalizing inComment with
  | nil =>
      cases inComment with
      | true => rfl
      | false => rfl
  | cons c front ih =>
      rw [List.cons_append] at h ⊢
      cases inComment with
      | true =>
          rw [blankRun] at h ⊢
          obtain ⟨hrun, hleft⟩ := Prod.mk.inj h
          rw [ih (Prod.ext (List.cons.inj hrun).2 hleft)]
          rfl
      | false =>
          rw [blankRun] at h ⊢
          by_cases hhash : c = '#'
          · rw [if_pos hhash] at h ⊢
            obtain ⟨hrun, hleft⟩ := Prod.mk.inj h
            rw [ih (Prod.ext (List.cons.inj hrun).2 hleft)]
            rfl
          · rw [if_neg hhash] at h ⊢
            by_cases hblank : isBlank c = true
            · rw [if_pos hblank] at h ⊢
              obtain ⟨hrun, hleft⟩ := Prod.mk.inj h
              rw [ih (Prod.ext (List.cons.inj hrun).2 hleft)]
              rfl
            · rw [if_neg hblank] at h
              cases h

/-! ### The seam -/

theorem blankRun_of_plain {c : Char} (rest : List Char) (h : (isBlank c || c = '#') = false) :
    blankRun false (c :: rest) = ([], c :: rest) := by
  rw [Bool.or_eq_false_iff, decide_eq_false_iff_not] at h
  rw [blankRun, if_neg h.2, if_neg (by simp [h.1])]

theorem blankRun_of_munch {lexeme rest : List Char} (h : Munch (lexeme ++ rest) lexeme .space) :
    blankRun false (lexeme ++ rest) = (lexeme, rest) := by
  obtain ⟨c, run, rfl⟩ := List.exists_cons_of_ne_nil h.lexical.ne_nil
  have hblank := (blanks_of_lexical h.lexical).head
  have hfound := (starting_of_blank (run ++ rest) hblank).symm.trans (starting_of_munch h rfl)
  have hpair := Lexeme.mk.inj (Option.some.inj hfound)
  exact Prod.ext hpair.2.1 hpair.2.2

theorem munch_of_blankRun {run rest : List Char} (h : blankRun false (run ++ rest) = (run, rest))
    (hrun : run ≠ []) : Munch (run ++ rest) run .space := by
  obtain ⟨c, run, rfl⟩ := List.exists_cons_of_ne_nil hrun
  have hblank : (isBlank c || c = '#') = true := by
    by_contra hplain
    rw [List.cons_append, blankRun_of_plain _ (by simpa using hplain)] at h
    cases h
  have hmunch := munch_of_starting (starting_of_blank (run ++ rest) hblank)
  rwa [← List.cons_append, h] at hmunch

theorem Segments.eq_nil {behind before cut : List Char} {ts : List Token}
    (h : Segments behind before cut ts) (hcut : cut = []) : ts = [] := by
  cases h with
  | nil => rfl
  | cons hmunch _ => exact absurd (List.append_eq_nil_iff.mp hcut).1 hmunch.lexical.ne_nil

/-- The blanks in front of a text leave its other tokens as they are. -/
theorem Segments.skip_blanks {before cut run rest : List Char} {ts : List Token}
    (h : Segments [] before cut ts) (hrun : blankRun false cut = (run, rest)) :
    ∃ us, Segments [] (before ++ run) rest us ∧
      us.filter Token.isSignificant = ts.filter Token.isSignificant := by
  cases h with
  | nil =>
      obtain ⟨rfl, rfl⟩ := Prod.mk.inj hrun
      exact ⟨[], .nil, rfl⟩
  | @cons _ lexeme cut kind ts hmunch tail =>
      rw [List.append_nil] at hmunch
      by_cases hspace : kind = .space
      · subst hspace
        obtain ⟨rfl, rfl⟩ := Prod.mk.inj (hrun.symm.trans (blankRun_of_munch hmunch))
        exact ⟨ts, tail, rfl⟩
      · obtain ⟨c, lexeme, rfl⟩ := List.exists_cons_of_ne_nil hmunch.lexical.ne_nil
        have hplain := hmunch.lexical.head_not_blank hspace
        obtain ⟨rfl, rfl⟩ := Prod.mk.inj (hrun.symm.trans (blankRun_of_plain (lexeme ++ cut) hplain))
        rw [List.append_nil]
        exact ⟨_, .cons (by rwa [List.append_nil]) tail, rfl⟩

theorem filter_relocate (move : Location → Location) (ts : List Token) :
    (ts.map (Token.relocate move)).filter Token.isSignificant =
      (ts.filter Token.isSignificant).map (Token.relocate move) := by
  rw [List.filter_map]
  rfl

/-- Blanks up to the seam and the blanks behind it are one token. -/
theorem Segments.append_blanks {before lexeme cut : List Char} {us : List Token}
    (hmunch : Munch (lexeme ++ []) lexeme .space) (hline : EndsLine (before ++ lexeme))
    (h : Segments [] [] cut us) :
    ∃ vs, Segments [] before (lexeme ++ cut) vs ∧ vs.filter Token.isSignificant =
      (us.filter Token.isSignificant).map
        (Token.relocate (Location.lower ((before ++ lexeme).count '\n'))) := by
  obtain ⟨run, rest, hrun⟩ : ∃ run rest, blankRun false cut = (run, rest) := ⟨_, _, rfl⟩
  have hcut : run ++ rest = cut := by
    have hsplit := Token.blankRun_append false cut
    rwa [hrun] at hsplit
  obtain ⟨ws, hws, hsame⟩ := h.skip_blanks hrun
  have hjoined : blankRun false (lexeme ++ run ++ rest) = (lexeme ++ run, rest) := by
    obtain ⟨front, rfl⟩ : ∃ front, lexeme = front ++ ['\n'] :=
      hline.of_append.resolve_left hmunch.lexical.ne_nil
    have halone : blankRun false (front ++ ['\n']) = (front ++ ['\n'], []) := by
      simpa using blankRun_of_munch hmunch
    have happend := blankRun_append_of_newline halone cut
    rw [hrun] at happend
    simpa [hcut] using happend
  have hlong := munch_of_blankRun hjoined (List.append_ne_nil_of_left_ne_nil hmunch.lexical.ne_nil run)
  have hlower := hws.lower hline
  rw [List.nil_append, List.append_assoc] at hlower
  have hsegments : Segments [] before (lexeme ++ run ++ rest) _ :=
    .cons (by rwa [List.append_nil]) hlower
  rw [List.append_assoc, hcut] at hsegments
  refine ⟨_, hsegments, ?_⟩
  rw [List.filter_cons_of_neg (by simp [Token.isSignificant, tokenOf]), filter_relocate, hsame]

/-- A lexeme in front of the seam is not changed by what is behind the seam, unless it is the blanks
right before it. -/
theorem Munch.before_seam {lexeme cut : List Char} {kind : Kind} (h : Munch (lexeme ++ cut) lexeme kind)
    (hline : EndsLine (lexeme ++ cut)) (hcut : kind = .space → cut ≠ []) (more : List Char) :
    Munch (lexeme ++ (cut ++ more)) lexeme kind := by
  by_cases hspace : kind = .space
  · subst hspace
    obtain ⟨c, rest, rfl⟩ := List.exists_cons_of_ne_nil (hcut rfl)
    have hrun := blankRun_append_of_rest (blankRun_of_munch h) more
    rw [List.append_assoc] at hrun
    exact munch_of_blankRun hrun h.lexical.ne_nil
  · refine h.before_newline hspace (hline.of_append.newline_mem ?_) more
    rintro rfl
    rw [List.append_nil] at hline
    have hnewline := hline.newline_mem h.lexical.ne_nil
    exact h.lexical.blank_not_mem hspace (by decide : isBlank '\n' = true) hnewline

/-- The tokens that count in two texts, the second behind the seam, are those of both. -/
theorem Segments.append {before cut more : List Char} {ts us : List Token}
    (h : Segments [] before cut ts) (hline : EndsLine (before ++ cut)) (hmore : Segments [] [] more us) :
    ∃ vs, Segments [] before (cut ++ more) vs ∧ vs.filter Token.isSignificant =
      ts.filter Token.isSignificant ++ (us.filter Token.isSignificant).map
        (Token.relocate (Location.lower ((before ++ cut).count '\n'))) := by
  induction h with
  | @nil before =>
      have hlower := hmore.lower hline
      rw [List.append_nil, List.append_nil] at hlower
      refine ⟨_, hlower, ?_⟩
      rw [filter_relocate, List.append_nil]
      rfl
  | @cons before lexeme cut kind ts hmunch tail ih =>
      have hassoc : before ++ (lexeme ++ cut) = before ++ lexeme ++ cut := (List.append_assoc _ _ _).symm
      by_cases hends : kind = .space ∧ cut = []
      · obtain ⟨rfl, rfl⟩ := hends
        obtain rfl := tail.eq_nil rfl
        rw [List.append_nil] at hline ⊢
        obtain ⟨vs, hvs, hsame⟩ := Segments.append_blanks hmunch hline hmore
        refine ⟨vs, hvs, ?_⟩
        rw [hsame, List.filter_cons_of_neg (by simp [Token.isSignificant, tokenOf])]
        rfl
      · rw [List.append_nil] at hmunch
        have hlonger : Munch (lexeme ++ (cut ++ more)) lexeme kind :=
          hmunch.before_seam hline.of_append (fun hspace hcut => hends ⟨hspace, hcut⟩) more
        rw [hassoc] at hline ⊢
        obtain ⟨vs, hvs, hsame⟩ := ih hline
        refine ⟨tokenOf before lexeme kind :: vs, ?_, ?_⟩
        · rw [List.append_assoc]
          exact .cons (by rwa [List.append_nil]) hvs
        · rw [List.filter_cons, List.filter_cons, hsame]
          split <;> rfl

end Lexicon

/-! ### Programs -/

open Stmt (relocateBlock)

theorem Grammar.Block.append {ts us : List Token} {stmts others : List Stmt} (h : Block ts stmts)
    (hothers : Block us others) : Block (ts ++ us) (stmts ++ others) := by
  match h with
  | .nil => exact hothers
  | .cons head hsemicolon tail =>
      rw [List.append_assoc, List.cons_append]
      exact .cons head hsemicolon (tail.append hothers)

namespace Parser

open Grammar (Block Derives)
open Lexicon (Segments endToken readerAt)
open Text (EndsLine)

/-- A text is parsed as a program just when it can be cut up to its end, and its tokens that count are
those of the statements. -/
theorem parse_eq_ok_iff_segments {source : String} {log : Log} {program : Program} :
    (∃ state, parse source log = .ok program state) ↔
      ∃ ts, Segments [] [] source.toList ts ∧ Block (ts.filter Token.isSignificant) program.body := by
  constructor
  · rintro ⟨state, h⟩
    obtain ⟨taken, htakes, hspelled⟩ := program_sound h
    have hfresh : (Reader.ofString source).Spelled := by simp [Reader.Spelled, Reader.ofString]
    have hderives : Derives taken program := hspelled (Reader.spelled_of_upcoming htakes hfresh)
    cases hderives with
    | @mk closing body stmts hbody hclosing =>
        obtain ⟨all, hall, hsame⟩ := Reader.tokens_of_upcoming htakes hclosing hbody.inside
        obtain ⟨cut, behind, ts, hsplit, hsegments, hend⟩ := Lexicon.exists_segments [] source.toList
        have hstart : (readerAt [] source.toList).tokens = .ok all := hall
        rcases hend with rfl | ⟨c, later, rfl, hstuck⟩
        · rw [List.append_nil] at hsplit
          rw [hsplit] at hstart ⊢
          rw [Lexicon.tokens_at_end hsegments] at hstart
          obtain rfl := Except.ok.inj hstart
          rw [List.filter_append] at hsame
          obtain ⟨hfront, -⟩ := List.append_inj' hsame rfl
          exact ⟨ts, hsegments, hfront ▸ hbody⟩
        · rw [hsplit, Lexicon.tokens_of_stuck hsegments hstuck] at hstart
          cases hstart
  · rintro ⟨ts, hsegments, hbody⟩
    have htokens : (Reader.ofString source).tokens = .ok (ts ++ [endToken source.toList]) :=
      Lexicon.tokens_at_end hsegments
    obtain ⟨rest, hstate⟩ := Reader.upcoming_of_tokens htokens
    have hfilter := List.length_filter_le Token.isSignificant (ts ++ [endToken source.toList])
    have hlength := Nat.le_trans hfilter (Reader.length_tokens_le htokens)
    have hderives : Derives ((ts ++ [endToken source.toList]).filter Token.isSignificant) program := by
      rw [List.filter_append]
      exact .mk hbody rfl
    have hstart : State.upcoming { reader := Reader.ofString source, log := log } = _ := hstate
    obtain ⟨after, hafter, -⟩ := program_of_derives hderives hlength hstart
    exact ⟨after, hafter⟩

/-- The log has no say in whether a text is parsed and as what. -/
theorem parse_with_log {source : String} {log : Log} {program : Program} {state : State}
    (h : parse source log = .ok program state) (other : Log) :
    ∃ state', parse source other = .ok program state' :=
  parse_eq_ok_iff_segments.mpr (parse_eq_ok_iff_segments.mp ⟨state, h⟩)

theorem parse_unique {source : String} {log log' : Log} {program program' : Program} {state state' : State}
    (h : parse source log = .ok program state) (h' : parse source log' = .ok program' state') :
    program = program' := by
  obtain ⟨other, hother⟩ := parse_with_log h log'
  rw [h'] at hother
  exact (EStateM.Result.ok.inj hother).1.symm

/-- The program of two texts is the one of the first and, further down, the one of the second. -/
theorem parse_append {first second : String} {log log' : Log} {program program' : Program}
    {state state' : State} (hline : EndsLine first.toList)
    (h : parse first log = .ok program state) (h' : parse second log' = .ok program' state')
    (other : Log) :
    ∃ state, parse (first ++ second) other =
      .ok { body := program.body ++
        relocateBlock (Location.lower (first.toList.count '\n')) program'.body } state := by
  obtain ⟨ts, hsegments, hbody⟩ := parse_eq_ok_iff_segments.mp ⟨state, h⟩
  obtain ⟨us, hsegments', hbody'⟩ := parse_eq_ok_iff_segments.mp ⟨state', h'⟩
  obtain ⟨vs, hjoined, hsame⟩ := hsegments.append hline hsegments'
  refine parse_eq_ok_iff_segments.mpr ⟨vs, by rwa [String.toList_append], ?_⟩
  rw [hsame]
  exact hbody.append (hbody'.relocate _)

/-- A move that leaves the places of the tokens that count as they are leaves the program as it is. -/
theorem relocateBlock_of_segments {source : String} {ts : List Token} {stmts : List Stmt}
    (hsegments : Segments [] [] source.toList ts) (hbody : Block (ts.filter Token.isSignificant) stmts)
    (move : Location → Location)
    (hmove : ∀ token ∈ ts.filter Token.isSignificant, move token.location = token.location) :
    relocateBlock move stmts = stmts := by
  have hfixed : (ts.filter Token.isSignificant).map (Token.relocate move) =
      ts.filter Token.isSignificant := by
    have htoken : ∀ token ∈ ts.filter Token.isSignificant, token.relocate move = id token := by
      intro token hmem
      rw [Token.relocate, hmove token hmem]
      rfl
    calc (ts.filter Token.isSignificant).map (Token.relocate move)
        = (ts.filter Token.isSignificant).map id := List.map_congr_left htoken
      _ = ts.filter Token.isSignificant := List.map_id _
  have hmoved : Block (ts.filter Token.isSignificant) (relocateBlock move stmts) :=
    hfixed ▸ hbody.relocate move
  obtain ⟨state, hstate⟩ : ∃ state, parse source {} = .ok { body := stmts } state :=
    parse_eq_ok_iff_segments.mpr ⟨ts, hsegments, hbody⟩
  obtain ⟨other, hother⟩ : ∃ other, parse source {} = .ok { body := relocateBlock move stmts } other :=
    parse_eq_ok_iff_segments.mpr ⟨ts, hsegments, hmoved⟩
  exact congrArg Program.body (parse_unique hother hstate)

/-- A move that leaves the places in the lines of a text as they are leaves its program as it is. -/
theorem relocateBlock_of_parse {source : String} {log : Log} {program : Program} {state : State}
    (h : parse source log = .ok program state) (move : Location → Location)
    (hmove : ∀ place : Location, 1 ≤ place.line →
      (EndsLine source.toList → place.line ≤ source.toList.count '\n') → move place = place) :
    relocateBlock move program.body = program.body := by
  obtain ⟨ts, hsegments, hbody⟩ := parse_eq_ok_iff_segments.mp ⟨state, h⟩
  apply relocateBlock_of_segments hsegments hbody
  intro token hmem
  obtain ⟨hfirst, hlast⟩ := hsegments.line_bounds (List.mem_filter.mp hmem).1
  exact hmove token.location hfirst hlast

end Parser
end LoopScript
