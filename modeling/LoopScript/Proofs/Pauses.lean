import LoopScript.Proofs.Constructs
import LoopScript.Proofs.ReadFree

/-! Accepted texts that are typed in line by line. At the end of a line where no construct is open and a
semicolon comes last, a program falls into two, so that the lines gathered since the last such line are
accepted on their own, and so is what comes behind them. -/

namespace LoopScript

namespace Grammar

/-! ### Programs that are cut behind a semicolon -/

/-- Inside a construct, more constructs have been opened than closed. -/
theorem Enclosed.closed_lt {front back : List Token} (h : Enclosed (front ++ back)) (hfront : front ≠ [])
    (hback : back ≠ []) : closed front < opened front := by
  generalize hwhole : front ++ back = ts at h
  cases h with
  | @mk opening closing inner hopening _ hinner =>
      obtain ⟨hopens, hcloses⟩ := counts_of_opening hopening
      obtain ⟨first, front, rfl⟩ := List.exists_cons_of_ne_nil hfront
      obtain ⟨init, last, rfl⟩ := (List.eq_nil_or_concat back).resolve_left hback
      rw [List.cons_append, List.concat_eq_append, ← List.append_assoc] at hwhole
      obtain ⟨rfl, hrest⟩ := List.cons.inj hwhole
      obtain ⟨rfl, -⟩ := List.append_inj' hrest rfl
      have hle := hinner.closed_take_le front.length
      rw [List.take_left'] at hle
      · simp only [opened_cons, closed_cons, hopens, hcloses, Bool.toNat_true, Bool.toNat_false]
        omega
      · rfl

/-- No token of a statement is a semicolon behind which nothing is open. -/
theorem Statement.last_ne_semicolon {front back : List Token} {stmt : Stmt}
    (h : Statement (front ++ back) stmt) (hbalanced : opened front = closed front) :
    ∀ last ∈ front.getLast?, last.kind ≠ .semicolon := by
  intro last hlast
  have hmem := List.mem_of_getLast? hlast
  rcases h.shape with hplain | henclosed
  · exact (hplain last (List.mem_append_left _ hmem)).2.2
  · by_cases hback : back = []
    · subst hback
      rw [List.append_nil] at henclosed
      cases henclosed with
      | @mk opening closing inner _ hclosing _ =>
          rw [← List.cons_append, List.getLast?_concat] at hlast
          obtain rfl := Option.some.inj hlast
          rcases hclosing with hkind | hkind <;> simp [hkind]
    · have hlt := henclosed.closed_lt (List.ne_nil_of_mem hmem) hback
      omega

/-- Behind a semicolon where nothing is open, a program falls into two. -/
theorem Block.split {front back : List Token} {stmts : List Stmt} (h : Block (front ++ back) stmts)
    (hbalanced : opened front = closed front)
    (hlast : ∀ last ∈ front.getLast?, last.kind = .semicolon) :
    ∃ first second, stmts = first ++ second ∧ Block front first ∧ Block back second := by
  by_cases hfront : front = []
  · subst hfront
    exact ⟨[], stmts, rfl, .nil, h⟩
  generalize hwhole : front ++ back = ts at h
  match h with
  | .nil => exact absurd (List.append_eq_nil_iff.mp hwhole).1 hfront
  | @Block.cons semicolon ts us stmt stmts head hsemicolon tail =>
      rcases List.append_eq_append_iff.mp hwhole with ⟨more, rfl, rfl⟩ | ⟨more, rfl, hmore⟩
      · -- The front ends inside the first statement, where no semicolon can be the last token.
        obtain ⟨init, last, rfl⟩ := (List.eq_nil_or_concat front).resolve_left hfront
        have hmem : last ∈ (init.concat last).getLast? := by simp
        exact absurd (hlast last hmem) (head.last_ne_semicolon hbalanced last hmem)
      · cases more with
        | nil =>
            rw [List.append_nil] at hbalanced hlast hfront
            obtain ⟨init, last, rfl⟩ := (List.eq_nil_or_concat ts).resolve_left hfront
            have hmem : last ∈ (init.concat last).getLast? := by simp
            have hhead : Statement (init.concat last ++ []) stmt := by rwa [List.append_nil]
            exact absurd (hlast last hmem) (hhead.last_ne_semicolon hbalanced last hmem)
        | cons other more =>
            obtain ⟨rfl, rfl⟩ := List.cons.inj hmore
            have hrest : opened more = closed more := by
              have hts := (wellNested_of_shape head.shape).balanced
              simp only [opened_append, closed_append, opened_cons, closed_cons] at hbalanced
              simp only [hsemicolon, Token.Kind.opens, Token.Kind.closes, Bool.toNat_false] at hbalanced
              omega
            have hmoreLast : ∀ last ∈ more.getLast?, last.kind = .semicolon := by
              intro last hmem
              apply hlast last
              rw [List.getLast?_append, List.getLast?_cons, hmem]
              rfl
            obtain ⟨first, second, rfl, hfirst, hsecond⟩ := tail.split hrest hmoreLast
            exact ⟨stmt :: first, second, rfl, .cons head hsemicolon hfirst, hsecond⟩

theorem Block.eq_nil {stmts : List Stmt} (h : Block [] stmts) : stmts = [] := by
  generalize hnone : [] = ts at h
  cases h with
  | nil => rfl
  | cons => simp at hnone

/-- No statement starts with a colon. -/
theorem Block.head_ne_colon {first : Token} {ts : List Token} {stmts : List Stmt}
    (h : Block (first :: ts) stmts) : first.kind ≠ .colon := by
  generalize hwhole : first :: ts = whole at h
  cases h with
  | nil => cases hwhole
  | cons head _ _ =>
      cases head with
      | loop hkind _ _ _ _ | leave hkind | leaveNamed hkind _ | read hkind _ | print hkind _
      | cond hkind _ _ _ _ | condElse hkind _ _ _ _ _ _ =>
          obtain ⟨rfl, -⟩ := List.cons.inj hwhole
          simp [hkind]
      | assign hname _ _ =>
          obtain ⟨rfl, -⟩ := List.cons.inj hwhole
          simp [hname.1]

end Grammar

open Grammar (opened closed Block)
open Stmt (relocateBlock)
open Text (EndsLine)
open Interpreter (Accepts)

/-! ### Texts that are cut there -/

/-- If no construct is open at the end of a text, a semicolon comes last, or nothing. -/
def Pauses (source : String) : Prop :=
  opened (bodyTokens source) = closed (bodyTokens source) →
    ∀ last ∈ (bodyTokens source).getLast?, last.kind = .semicolon

/-- A place that is so many lines further up. -/
def Location.raise (lines : Nat) (place : Location) : Location :=
  { place with line := place.line - lines }

theorem Token.relocate_raise (lines : Nat) (ts : List Token) :
    (ts.map (Token.relocate (Location.lower lines))).map (Token.relocate (Location.raise lines)) = ts := by
  rw [List.map_map]
  calc ts.map (Token.relocate (Location.raise lines) ∘ Token.relocate (Location.lower lines))
      = ts.map id := by
        refine List.map_congr_left fun token _ => ?_
        have hplace : (token.location.lower lines).raise lines = token.location := by
          rw [Location.lower, Location.raise, Nat.add_sub_cancel]
        rw [Function.comp_apply, relocate, relocate, hplace]
        rfl
    _ = ts := List.map_id ts

theorem lexed_of_accepts {source : String} {program : Program} (h : Accepts source program) :
    Lexed source ∧ Block (bodyTokens source) program.body :=
  Parser.parse_eq_ok_iff_bodyTokens.mp h.1

/-- An accepted text falls into two where no construct is open and a semicolon comes last. -/
theorem Interpreter.Accepts.split {first second : String} {program : Program}
    (h : Accepts (first ++ second) program) (hline : EndsLine first.toList) (hpauses : Pauses first)
    (hbalanced : opened (bodyTokens first) = closed (bodyTokens first)) :
    ∃ program₁ program₂, Accepts first program₁ ∧ Accepts second program₂ ∧
      program.body =
        program₁.body ++ relocateBlock (Location.lower (first.toList.count '\n')) program₂.body := by
  obtain ⟨hlexed, hbody⟩ := lexed_of_accepts h
  obtain ⟨hfirst, hsecond, htokens⟩ := Lexicon.bodyTokens_append hline hlexed
  rw [htokens] at hbody
  obtain ⟨stmts, others, hstmts, hstmtsBody, hothersBody⟩ := hbody.split hbalanced (hpauses hbalanced)
  have herrors := h.2
  rw [LabelCheck.errors, hstmts, LabelCheck.blockErrors_append, List.append_eq_nil_iff] at herrors
  have hraised := hothersBody.relocate (Location.raise (first.toList.count '\n'))
  rw [Token.relocate_raise] at hraised
  let program₁ : Program := ⟨stmts⟩
  let program₂ : Program := ⟨relocateBlock (Location.raise (first.toList.count '\n')) others⟩
  have haccepts₁ : Accepts first program₁ :=
    ⟨Parser.parse_eq_ok_iff_bodyTokens.mpr ⟨hfirst, hstmtsBody⟩, herrors.1⟩
  have haccepts₂ : Accepts second program₂ := by
    refine ⟨Parser.parse_eq_ok_iff_bodyTokens.mpr ⟨hsecond, hraised⟩, ?_⟩
    show LabelCheck.blockErrors [] (relocateBlock _ others) = []
    rw [LabelCheck.blockErrors_relocate, herrors.2]
    rfl
  refine ⟨program₁, program₂, haccepts₁, haccepts₂, ?_⟩
  -- The two programs make up one of the whole text, and a text has one program.
  obtain ⟨⟨state, hstate⟩, -⟩ := haccepts₁.append hline haccepts₂
  obtain ⟨⟨state', hstate'⟩, -⟩ := h
  exact congrArg Program.body (Parser.parse_unique hstate' hstate)

theorem opened_relocate (move : Location → Location) (ts : List Token) :
    opened (ts.map (Token.relocate move)) = opened ts := List.countP_map

theorem closed_relocate (move : Location → Location) (ts : List Token) :
    closed (ts.map (Token.relocate move)) = closed ts := List.countP_map

/-- The first lines of an accepted text are complete exactly if no construct is open behind them. -/
theorem isComplete_iff_balanced {first second : String} {program : Program}
    (h : Accepts (first ++ second) program) (hline : EndsLine first.toList) :
    isComplete first = true ↔ opened (bodyTokens first) = closed (bodyTokens first) := by
  obtain ⟨hlexed, hbody⟩ := lexed_of_accepts h
  obtain ⟨hfirst, -, htokens⟩ := Lexicon.bodyTokens_append hline hlexed
  have hle := hbody.wellNested.closed_take_le (bodyTokens first).length
  rw [htokens, List.take_left] at hle
  rw [isComplete_iff hfirst]
  omega

theorem isComplete_of_accepts {source : String} {program : Program} (h : Accepts source program) :
    isComplete source = true := by
  obtain ⟨hlexed, hbody⟩ := lexed_of_accepts h
  rw [isComplete_iff hlexed]
  exact hbody.wellNested.balanced.le

/-- What comes behind finished lines without an open construct pauses where both together do. -/
theorem Pauses.of_append {first second : String} (h : Pauses (first ++ second))
    (hline : EndsLine first.toList) (hlexed : Lexed (first ++ second))
    (hbalanced : opened (bodyTokens first) = closed (bodyTokens first)) : Pauses second := by
  intro hsecond last hlast
  obtain ⟨-, -, htokens⟩ := Lexicon.bodyTokens_append hline hlexed
  rw [Pauses, htokens, Grammar.opened_append, Grammar.closed_append, opened_relocate, closed_relocate] at h
  have hmoved := h (by omega) (last.relocate (Location.lower (first.toList.count '\n')))
  apply hmoved
  rw [List.getLast?_append, List.getLast?_map, hlast]
  rfl

/-! ### No line of a program is a command -/

namespace Lexicon

open Token (blankRun)

theorem blankRun_of_isBlank {blanks : List Char} (hblanks : ∀ c ∈ blanks, Text.isBlank c = true)
    (rest : List Char) :
    blankRun false (blanks ++ rest) =
      (blanks ++ (blankRun false rest).1, (blankRun false rest).2) := by
  induction blanks with
  | nil => rfl
  | cons c blanks ih =>
      obtain ⟨hc, hblanks⟩ := List.forall_mem_cons.mp hblanks
      have hhash : c ≠ '#' := by
        rintro rfl
        exact absurd hc (by decide)
      rw [List.cons_append, blankRun, if_neg hhash, if_pos hc, ih hblanks]
      rfl

/-- If nothing but blanks is in front of a colon, the colon is the first token that counts. -/
theorem head_bodyTokens_of_colon {source : String} {blanks rest : List Char} (hlexed : Lexed source)
    (hsource : source.toList = blanks ++ ':' :: rest) (hblanks : ∀ c ∈ blanks, Text.isBlank c = true) :
    ∃ token ts, bodyTokens source = token :: ts ∧ token.kind = .colon := by
  obtain ⟨ts, hts⟩ := lexed_iff.mp hlexed
  have hplain : blankRun false (':' :: rest) = ([], ':' :: rest) := blankRun_of_plain rest (by decide)
  have hrun := blankRun_of_isBlank hblanks (':' :: rest)
  rw [hplain, List.append_nil, ← hsource] at hrun
  obtain ⟨us, hus, hsame⟩ := hts.skip_blanks hrun
  rw [bodyTokens_of_segments hts, ← hsame]
  generalize htext : ':' :: rest = text at hus
  cases hus with
  | nil => cases htext
  | @cons _ lexeme cut kind us hmunch _ =>
      change ':' :: rest = lexeme ++ cut at htext
      rw [List.append_nil, ← htext] at hmunch
      have hfound := starting_of_munch hmunch htext
      have hcolon : Token.Lexeme.starting ':' rest = some ⟨.colon, [':'], rest⟩ := rfl
      rw [hcolon] at hfound
      obtain ⟨rfl, -, -⟩ := Token.Lexeme.mk.inj (Option.some.inj hfound)
      exact ⟨_, _, List.filter_cons_of_pos (by simp [Token.isSignificant, tokenOf]), rfl⟩

end Lexicon

/-- A line that starts with a colon, but for blanks. -/
theorem Text.exists_colon_of_trim {line : String} (h : ":".isPrefixOf (trim line) = true) :
    ∃ blanks rest, line.toList = blanks ++ ':' :: rest ∧ ∀ c ∈ blanks, isBlank c = true := by
  have hprefix : [':'] <+: (trim line).toList := String.startsWith_string_iff.mp h
  rw [trim, String.toList_ofList] at hprefix
  have hfront : [':'] <+: line.toList.dropWhile isBlank := by
    refine hprefix.trans ?_
    rw [← List.reverse_suffix, List.reverse_reverse]
    exact List.dropWhile_suffix _
  obtain ⟨rest, hrest⟩ := hfront
  refine ⟨line.toList.takeWhile isBlank, rest, ?_, fun c hc => List.mem_takeWhile_imp hc⟩
  rw [← List.singleton_append, hrest, List.takeWhile_append_dropWhile]

/-- An accepted text does not start with a command. -/
theorem not_command_of_accepts {line rest : String} {program : Program}
    (h : Accepts (line ++ rest) program) : ":".isPrefixOf (Text.trim line) = false := by
  obtain ⟨hlexed, hbody⟩ := lexed_of_accepts h
  rw [← Bool.not_eq_true]
  intro hcolon
  obtain ⟨blanks, more, hline, hblanks⟩ := Text.exists_colon_of_trim hcolon
  have hsource : (line ++ rest).toList = blanks ++ ':' :: (more ++ rest.toList) := by
    rw [String.toList_append, hline, List.append_assoc, List.cons_append]
  obtain ⟨token, ts, htokens, hkind⟩ := Lexicon.head_bodyTokens_of_colon hlexed hsource hblanks
  rw [htokens] at hbody
  exact hbody.head_ne_colon hkind

/-! ### Lines that are gathered up to a pause -/

/-- A text with these lines, each of them finished. -/
def Text.ofLines (lines : List String) : String := String.join (lines.map (· ++ "\n"))

/-- What is run of a text with these lines when some lines before them are still gathered. -/
def Session.chunks : (gathered : String) → List String → List String
  | _, [] => []
  | gathered, line :: lines =>
      let source := gathered ++ line ++ "\n"
      if isComplete source then source :: chunks "" lines else chunks source lines

namespace Text

theorem ofLines_cons (line : String) (lines : List String) :
    ofLines (line :: lines) = line ++ "\n" ++ ofLines lines := String.join_cons

theorem ofLines_append (lines others : List String) :
    ofLines (lines ++ others) = ofLines lines ++ ofLines others := by
  rw [ofLines, List.map_append, String.join_append]
  rfl

theorem endsLine_append_newline (text : String) : EndsLine (text ++ "\n").toList :=
  .inr ⟨text.toList, String.toList_append⟩

theorem EndsLine.append {first second : List Char} (h : EndsLine first) (h' : EndsLine second) :
    EndsLine (first ++ second) := by
  rcases h' with rfl | ⟨front, rfl⟩
  · rwa [List.append_nil]
  · exact .inr ⟨first ++ front, (List.append_assoc _ _ _).symm⟩

theorem endsLine_ofLines (lines : List String) : EndsLine (ofLines lines).toList := by
  induction lines with
  | nil => exact .inl rfl
  | cons line lines ih =>
      rw [ofLines_cons, String.toList_append]
      exact (endsLine_append_newline line).append ih

end Text

open Text (ofLines ofLines_cons)

/-- Some lines are gathered and more lines are still to be typed, all of them of an accepted program
without READ that pauses at the ends of its lines. -/
structure Typing (gathered : String) (lines : List String) (program : Program) : Prop where
  accepts : Accepts (gathered ++ ofLines lines) program
  readFree : ∀ token ∈ bodyTokens (gathered ++ ofLines lines), token.kind ≠ .readWord
  pauses : ∀ i, Pauses (gathered ++ ofLines (lines.take i))
  isOpen : gathered = "" ∨ isComplete gathered = false

namespace Typing

variable {gathered line : String} {lines : List String} {program : Program}

/-- Nothing is left over behind the last line. -/
theorem gathered_eq (h : Typing gathered [] program) : gathered = "" := by
  refine h.isOpen.resolve_right fun hopen => ?_
  have haccepts : Accepts gathered program := by
    have hwhole := h.accepts
    rwa [ofLines, List.map_nil, String.join_nil, String.append_empty] at hwhole
  rw [isComplete_of_accepts haccepts] at hopen
  cases hopen

theorem append_line (gathered line : String) (lines : List String) :
    gathered ++ ofLines (line :: lines) = gathered ++ line ++ "\n" ++ ofLines lines := by
  simp only [ofLines_cons, String.append_assoc]

theorem not_command (h : Typing "" (line :: lines) program) :
    ":".isPrefixOf (Text.trim line) = false := by
  have haccepts := h.accepts
  rw [String.empty_append, ofLines_cons, String.append_assoc] at haccepts
  exact not_command_of_accepts haccepts

/-- A line that leaves the gathered lines open is gathered too. -/
theorem gather (h : Typing gathered (line :: lines) program)
    (hopen : isComplete (gathered ++ line ++ "\n") = false) :
    Typing (gathered ++ line ++ "\n") lines program where
  accepts := append_line gathered line lines ▸ h.accepts
  readFree := append_line gathered line lines ▸ h.readFree
  pauses := by
    intro i
    rw [← append_line]
    exact h.pauses (i + 1)
  isOpen := .inr hopen

/-- A line that leaves nothing open ends a program of its own, and what comes behind it is one too. -/
theorem evaluate (h : Typing gathered (line :: lines) program)
    (hcomplete : isComplete (gathered ++ line ++ "\n") = true) :
    ∃ program₁ program₂, Accepts (gathered ++ line ++ "\n") program₁ ∧
      Stmt.ReadFreeBlock program₁.body ∧ Typing "" lines program₂ ∧
      program.body = program₁.body ++
        relocateBlock (Location.lower ((gathered ++ line ++ "\n").toList.count '\n')) program₂.body := by
  have hline : EndsLine (gathered ++ line ++ "\n").toList := Text.endsLine_append_newline _
  have haccepts := h.accepts
  rw [append_line] at haccepts
  have hbalanced := (isComplete_iff_balanced haccepts hline).mp hcomplete
  have hpauses : ∀ i, Pauses (gathered ++ line ++ "\n" ++ ofLines (lines.take i)) := by
    intro i
    rw [← append_line]
    exact h.pauses (i + 1)
  have hpause : Pauses (gathered ++ line ++ "\n") := by
    have hfirst := hpauses 0
    rwa [List.take_zero, ofLines, List.map_nil, String.join_nil, String.append_empty] at hfirst
  obtain ⟨program₁, program₂, haccepts₁, haccepts₂, hbody⟩ := haccepts.split hline hpause hbalanced
  have hlexed := (lexed_of_accepts haccepts).1
  obtain ⟨-, -, htokens⟩ := Lexicon.bodyTokens_append hline hlexed
  have hreadFree := h.readFree
  rw [append_line, htokens] at hreadFree
  obtain ⟨hfree₁, hfree₂⟩ := List.forall_mem_append.mp hreadFree
  refine ⟨program₁, program₂, haccepts₁, (lexed_of_accepts haccepts₁).2.readFree hfree₁, ?_, hbody⟩
  constructor
  · rwa [String.empty_append]
  · rw [String.empty_append]
    intro token hmem
    exact hfree₂ (token.relocate _) (List.mem_map_of_mem hmem)
  · intro i
    rw [String.empty_append]
    have hfront : Lexed (gathered ++ line ++ "\n" ++ ofLines (lines.take i)) := by
      rw [← List.take_append_drop i lines, Text.ofLines_append, ← String.append_assoc] at hlexed
      refine (Lexicon.bodyTokens_append ?_ hlexed).1
      rw [String.toList_append]
      exact hline.append (Text.endsLine_ofLines _)
    exact (hpauses i).of_append hline hfront hbalanced
  · exact .inl rfl

/-- The chunks that are run are accepted, and are the whole text, one behind the other. -/
theorem chunks_spec (h : Typing gathered lines program) :
    String.join (Session.chunks gathered lines) = gathered ++ ofLines lines ∧
      ∀ chunk ∈ Session.chunks gathered lines, ∃ part, Accepts chunk part := by
  induction lines generalizing gathered program with
  | nil =>
      obtain rfl := h.gathered_eq
      exact ⟨rfl, fun chunk hmem => absurd hmem List.not_mem_nil⟩
  | cons line lines ih =>
      rw [Session.chunks]
      split
      · next hcomplete =>
          obtain ⟨program₁, program₂, haccepts, -, htyping, -⟩ := h.evaluate hcomplete
          obtain ⟨hjoin, hparts⟩ := ih htyping
          constructor
          · rw [String.join_cons, hjoin, String.empty_append, append_line]
          · exact List.forall_mem_cons.mpr ⟨⟨program₁, haccepts⟩, hparts⟩
      · next hopen =>
          rw [append_line]
          exact ih (h.gather (Bool.eq_false_iff.mpr hopen))

end Typing

end LoopScript
