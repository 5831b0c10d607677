import LoopScript.Proofs.Seams

/-! Texts that are cut at the end of a line. No lexeme but a run of blanks goes on behind a newline, and
such a run is one of blanks on both sides of the cut. So if a text has no lexical error, neither part has
one, and the tokens of the text that count are those of its first lines, followed by those of the others
further down. -/

namespace LoopScript

open Text (EndsLine)

def Lexed (source : String) : Prop := ∃ ts, tokenize source = .ok ts

/-- The tokens of a text that count, without the end token. -/
def bodyTokens (source : String) : List Token :=
  (leadingTokens source).filter (·.kind ≠ .endOfText)

namespace Lexicon

open Token (Kind blankRun)

/-! ### Lexemes in front of the cut -/

/-- A lexeme is also the longest one in a text that is cut off behind it. -/
theorem Munch.of_append {lexeme cut more : List Char} {kind : Kind}
    (h : Munch (lexeme ++ (cut ++ more)) lexeme kind) : Munch (lexeme ++ cut) lexeme kind where
  isFront := List.prefix_append _ _
  lexical := h.lexical
  longest := by
    intro other kind' hother hlexical
    apply h.longest other kind' _ hlexical
    rw [← List.append_assoc]
    exact hother.trans (List.prefix_append _ _)

/-- A run of blanks over a newline is made up of two. -/
theorem blankRun_split {inComment : Bool} {front more run rest : List Char}
    (h : blankRun inComment (front ++ '\n' :: more) = (front ++ '\n' :: run, rest)) :
    blankRun inComment (front ++ ['\n']) = (front ++ ['\n'], []) ∧ blankRun false more = (run, rest) := by
  induction front generalizing inComment with
  | nil =>
      have hnewline : blankRun inComment ('\n' :: more) =
          ('\n' :: (blankRun false more).1, (blankRun false more).2) := by cases inComment <;> rfl
      rw [List.nil_append, List.nil_append, hnewline] at h
      obtain ⟨hrun, hrest⟩ := Prod.mk.inj h
      refine ⟨by cases inComment <;> rfl, Prod.ext (List.cons.inj hrun).2 hrest⟩
  | cons c front ih =>
      rw [List.cons_append, List.cons_append] at h
      rw [List.cons_append]
      cases inComment with
      | true =>
          rw [blankRun] at h ⊢
          obtain ⟨hrun, hrest⟩ := Prod.mk.inj h
          obtain ⟨hfront, hmore⟩ := ih (Prod.ext (List.cons.inj hrun).2 hrest)
          exact ⟨by rw [hfront], hmore⟩
      | false =>
          rw [blankRun] at h ⊢
          split at h
          · next hhash =>
              obtain ⟨hrun, hrest⟩ := Prod.mk.inj h
              obtain ⟨hfront, hmore⟩ := ih (Prod.ext (List.cons.inj hrun).2 hrest)
              exact ⟨by rw [if_pos hhash, hfront], hmore⟩
          · next hhash =>
              split at h
              · next hblank =>
                  obtain ⟨hrun, hrest⟩ := Prod.mk.inj h
                  obtain ⟨hfront, hmore⟩ := ih (Prod.ext (List.cons.inj hrun).2 hrest)
                  exact ⟨by rw [if_neg hhash, if_pos hblank, hfront], hmore⟩
              · cases (Prod.mk.inj h).1

/-! ### Cutting -/

/-- A text is cut in the same way wherever it starts. -/
theorem Segments.elsewhere {behind before cut : List Char} {ts : List Token}
    (h : Segments behind before cut ts) (other : List Char) : ∃ us, Segments behind other cut us := by
  induction h generalizing other with
  | nil => exact ⟨[], .nil⟩
  | @cons before lexeme cut kind ts hmunch _ ih =>
      obtain ⟨us, hus⟩ := ih (other ++ lexeme)
      exact ⟨tokenOf other lexeme kind :: us, .cons hmunch hus⟩

theorem Segments.unique {before cut : List Char} {ts us : List Token} (h : Segments [] before cut ts)
    (h' : Segments [] before cut us) : ts = us := by
  have hsame := (tokens_at_end h).symm.trans (tokens_at_end h')
  exact List.append_cancel_right (Except.ok.inj hsame)

/-- A lexeme that goes over the end of a line is a run of blanks, with one on each side. -/
theorem Munch.split {first second cut : List Char} {kind : Kind}
    (h : Munch (first ++ second ++ cut) (first ++ second) kind) (hline : EndsLine first) (hne : first ≠ []) :
    Munch (first ++ []) first .space ∧ (second ≠ [] → Munch (second ++ cut) second .space) := by
  have hnewline : '\n' ∈ first ++ second := List.mem_append_left _ (hline.newline_mem hne)
  have hspace : kind = .space := by
    by_contra hkind
    exact h.lexical.blank_not_mem hkind (by decide : Text.isBlank '\n' = true) hnewline
  subst hspace
  obtain ⟨front, rfl⟩ := hline.resolve_left hne
  have hrun := blankRun_of_munch h
  simp only [List.append_assoc, List.cons_append] at hrun
  obtain ⟨hfront, hmore⟩ := blankRun_split hrun
  constructor
  · apply munch_of_blankRun _ hne
    rwa [List.append_nil]
  · intro hsecond
    exact munch_of_blankRun hmore hsecond

/-- Cut at the end of a line, a text without lexical errors falls into two such texts. -/
theorem Segments.split {before first second : List Char} {vs : List Token}
    (h : Segments [] before (first ++ second) vs) (hline : EndsLine (before ++ first)) :
    ∃ ts us, Segments [] before first ts ∧ Segments [] [] second us := by
  by_cases hfirst : first = []
  · subst hfirst
    obtain ⟨us, hus⟩ := h.elsewhere []
    exact ⟨[], us, .nil, hus⟩
  generalize htext : first ++ second = text at h
  induction h generalizing first with
  | nil => exact absurd (List.append_eq_nil_iff.mp htext).1 hfirst
  | @cons before lexeme cut kind ts hmunch tail ih =>
      rw [List.append_nil] at hmunch
      rcases List.append_eq_append_iff.mp htext.symm with ⟨rest, rfl, rfl⟩ | ⟨more, rfl, rfl⟩
      · have hshort : Munch (lexeme ++ (rest ++ [])) lexeme kind := by
          rw [List.append_nil]
          exact hmunch.of_append
        by_cases hrest : rest = []
        · subst hrest
          obtain ⟨us, hus⟩ := tail.elsewhere []
          exact ⟨_, us, .cons hshort .nil, hus⟩
        · obtain ⟨ts', us, hts', hus⟩ := ih (by rwa [List.append_assoc]) hrest rfl
          exact ⟨_, us, .cons hshort hts', hus⟩
      · obtain ⟨hfront, hback⟩ := hmunch.split hline.of_append hfirst
        obtain ⟨us, hus⟩ := tail.elsewhere more
        have hblank : Segments [] before (first ++ []) [tokenOf before first .space] := .cons hfront .nil
        rw [List.append_nil] at hblank
        by_cases hmore : more = []
        · subst hmore
          exact ⟨_, us, hblank, hus⟩
        · exact ⟨_, _, hblank, .cons (by rw [List.append_nil]; exact hback hmore) hus⟩

theorem bodyTokens_of_segments {source : String} {ts : List Token}
    (h : Segments [] [] source.toList ts) : bodyTokens source = ts.filter Token.isSignificant := by
  have hstart : Reader.ofString source = readerAt [] (source.toList ++ []) := by
    rw [List.append_nil]
    rfl
  have hend : (readerAt ([] ++ source.toList) []).leading = [endToken source.toList] := by
    rw [Reader.leading_eq]
    rfl
  have hinside : ∀ token ∈ ts.filter Token.isSignificant, token.kind ≠ .endOfText := by
    intro token hmem hkind
    obtain ⟨run, -, hlexical, -⟩ := spelling_of_segments h token hmem
    exact hlexical.kind_ne_endOfText hkind
  have hbody : leadingTokens source = ts.filter Token.isSignificant ++ [endToken source.toList] := by
    rw [leadingTokens, hstart, leading_of_segments h, hend, List.filter_append]
    rfl
  rw [bodyTokens, hbody, List.filter_append, List.filter_eq_self.mpr (by simpa using hinside)]
  exact List.append_nil _

theorem lexed_iff {source : String} : Lexed source ↔ ∃ ts, Segments [] [] source.toList ts := by
  constructor
  · rintro ⟨ts, hts⟩
    obtain ⟨cut, behind, us, hsplit, hsegments, hend⟩ := exists_segments [] source.toList
    have hstart : tokenize source = (readerAt [] source.toList).tokens := rfl
    rcases hend with rfl | ⟨c, rest, rfl, hstuck⟩
    · rw [List.append_nil] at hsplit
      exact ⟨us, hsplit ▸ hsegments⟩
    · rw [hstart, hsplit, tokens_of_stuck hsegments hstuck] at hts
      cases hts
  · rintro ⟨ts, hts⟩
    exact ⟨_, tokens_at_end hts⟩

/-- The tokens of a text that is cut at the end of a line are those of the two parts. -/
theorem bodyTokens_append {first second : String} (hline : EndsLine first.toList)
    (h : Lexed (first ++ second)) :
    Lexed first ∧ Lexed second ∧ bodyTokens (first ++ second) =
      bodyTokens first ++
        (bodyTokens second).map (Token.relocate (Location.lower (first.toList.count '\n'))) := by
  obtain ⟨vs, hvs⟩ := lexed_iff.mp h
  have hcut := hvs
  rw [String.toList_append] at hcut
  obtain ⟨ts, us, hts, hus⟩ := hcut.split hline
  obtain ⟨ws, hws, hsame⟩ := hts.append hline hus
  refine ⟨lexed_iff.mpr ⟨ts, hts⟩, lexed_iff.mpr ⟨us, hus⟩, ?_⟩
  rw [bodyTokens_of_segments hvs, bodyTokens_of_segments hts, bodyTokens_of_segments hus,
    hcut.unique hws, hsame]
  rfl

end Lexicon

/-- A text is parsed if it has no lexical error and its tokens are those of some statements. -/
theorem Parser.parse_eq_ok_iff_bodyTokens {source : String} {log : Log} {program : Program} :
    (∃ state, parse source log = .ok program state) ↔
      Lexed source ∧ Grammar.Block (bodyTokens source) program.body := by
  rw [parse_eq_ok_iff_segments, Lexicon.lexed_iff]
  constructor
  · rintro ⟨ts, hts, hbody⟩
    exact ⟨⟨ts, hts⟩, by rwa [Lexicon.bodyTokens_of_segments hts]⟩
  · rintro ⟨⟨ts, hts⟩, hbody⟩
    exact ⟨ts, hts, by rwa [Lexicon.bodyTokens_of_segments hts] at hbody⟩

end LoopScript
