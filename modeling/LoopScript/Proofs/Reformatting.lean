import LoopScript.Proofs.CheckedRuns
import LoopScript.Proofs.Similarity
import LoopScript.Proofs.ValidPrefix

/-! Texts that are written differently and mean the same. Two texts without lexical errors may differ in
blanks, line breaks, comments and the case of keywords; if their other tokens are of the same kinds and
have the same characters, the parser meets streams that are alike, and everything that follows is the
same but for places: the program, what the label check reports, and every run. -/

namespace LoopScript

open Stmt (relocateBlock)

/-- A report without its place and the line there. -/
def Diagnostic.unplaced (report : Diagnostic) : Diagnostic :=
  { report with location := .unknown, sourceLine := none }

theorem Diagnostic.unplaced_attachSource (file : Option String) (source : String) (report : Diagnostic) :
    (report.attachSource file source).unplaced = report.unplaced := by
  unfold attachSource
  split <;> rfl

theorem Diagnostic.unplaced_relocate (move : Location → Location) (report : Diagnostic) :
    (report.relocate move).unplaced = report.unplaced := rfl

/-! ### Streams of texts -/

namespace Lexicon

/-- At the end of a text there are end tokens for ever. -/
theorem upcoming_at_end (before : List Char) :
    (readerAt before []).upcoming = Stream'.const (.ok (endToken before)) := by
  have hloop : (readerAt before []).upcoming =
      Stream'.cons (.ok (endToken before)) (readerAt before []).upcoming :=
    Reader.upcoming_of_ok (Reader.skipSpaces_of_next rfl nofun)
  funext n
  induction n with
  | zero => rw [hloop]; rfl
  | succ n ih => rw [hloop]; exact ih

/-- The stream of a text without lexical errors. -/
theorem upcoming_of_tokenize {source : String} {ts : List Token} (h : tokenize source = .ok ts) :
    ∃ closing, closing.shape = (.endOfText, none) ∧
      (Reader.ofString source).upcoming =
        (ts.filter Token.isSignificant).map .ok ++ₛ Stream'.const (.ok closing) := by
  have hstart : tokenize source = (readerAt [] source.toList).tokens := rfl
  obtain ⟨cut, behind, cutTokens, hsplit, hsegments, hend⟩ := exists_segments [] source.toList
  rcases hend with rfl | ⟨c, rest, rfl, hstuck⟩
  · rw [List.append_nil] at hsplit
    rw [hstart, hsplit, tokens_at_end hsegments] at h
    obtain rfl := Except.ok.inj h
    refine ⟨endToken cut, rfl, ?_⟩
    have hupcoming := upcoming_of_segments hsegments
    rw [List.append_nil, List.nil_append, upcoming_at_end] at hupcoming
    have hreader : Reader.ofString source = readerAt [] cut := by rw [← hsplit]; rfl
    rw [hreader, hupcoming, List.filter_append, List.map_append, Stream'.append_append_stream]
    exact congrArg (_ ++ₛ ·) (Stream'.const_eq _)
  · rw [hstart, hsplit, tokens_of_stuck hsegments hstuck] at h
    cases h

end Lexicon

theorem alike_append {ts us : List Token} {s s' : Stream' (Except Diagnostic Token)}
    (hshapes : ts.map Token.shape = us.map Token.shape) (h : Alike s s') :
    Alike (ts.map .ok ++ₛ s) (us.map .ok ++ₛ s') := by
  induction ts generalizing us with
  | nil =>
      obtain rfl := List.map_eq_nil_iff.mp hshapes.symm
      exact h
  | cons token ts ih =>
      cases us with
      | nil => cases hshapes
      | cons token' us =>
          obtain ⟨hshape, hrest⟩ := List.cons.inj hshapes
          exact alike_cons hshape (ih hrest)

/-! ### Parsing and checking -/

namespace Parser

/-- The budget that a text gives is never used up. -/
theorem parse_ne_outOfFuel (source : String) (log : Log) (state : State) :
    parse source log ≠ .error .outOfFuel state := by
  intro h
  obtain ⟨report, tail, hreport, -, -⟩ := diagnosis_of_parse h
  cases hreport

end Parser

def AlikeTexts (source other : String) : Prop :=
  Alike (Reader.ofString source).upcoming (Reader.ofString other).upcoming

theorem alikeTexts_of_shapes {source other : String} {ts us : List Token}
    (hsource : tokenize source = .ok ts) (hother : tokenize other = .ok us)
    (hshapes : (ts.filter Token.isSignificant).map Token.shape =
      (us.filter Token.isSignificant).map Token.shape) : AlikeTexts source other := by
  obtain ⟨closing, hclosing, hstream⟩ := Lexicon.upcoming_of_tokenize hsource
  obtain ⟨closing', hclosing', hstream'⟩ := Lexicon.upcoming_of_tokenize hother
  rw [AlikeTexts, hstream, hstream']
  exact alike_append hshapes fun _ => ⟨closing, closing', rfl, rfl, hclosing.trans hclosing'.symm⟩

/-- Texts that are alike are both parsed, as programs that differ in places only, or both rejected,
with reports that differ in places only. -/
theorem AlikeTexts.parse {source other : String} (h : AlikeTexts source other) (log log' : Log) :
    (∃ program program' state state', Parser.parse source log = .ok program state ∧
      Parser.parse other log' = .ok program' state' ∧
      Parser.SameBlock program.body program'.body) ∨
    ∃ report report' state state', Parser.parse source log = .error (.report report) state ∧
      Parser.parse other log' = .error (.report report') state' ∧
      report.relocate Location.erase = report'.relocate Location.erase := by
  have hstart : Alike (Parser.State.upcoming ⟨Reader.ofString source, log⟩)
    (Parser.State.upcoming ⟨Reader.ofString other, log'⟩) := h
  exact (Parser.similar_program hstart).cases (Parser.parse_ne_outOfFuel source log)
    (Parser.parse_ne_outOfFuel other log')

theorem LabelCheck.errors_of_sameBlock {program program' : Program}
    (h : Parser.SameBlock program.body program'.body) :
    (errors program).map (Diagnostic.relocate Location.erase) =
      (errors program').map (Diagnostic.relocate Location.erase) := by
  rw [errors, errors, ← blockErrors_relocate, ← blockErrors_relocate, h]

/-! ### Runs -/

namespace Interpreter

def Ending.unplaced (ending : Ending) : Ending := (ending.1.mapError Diagnostic.unplaced, ending.2)

/-- Places do not change what is left of an ending without them. -/
theorem unplaced_ending (interpreter : Interpreter) (source : String) (outcome : Outcome) :
    (interpreter.ending source outcome).unplaced =
      ((finish (Exec.relocateOutcome Location.erase outcome)).1.mapError Diagnostic.unplaced,
        (finish (Exec.relocateOutcome Location.erase outcome)).2, interpreter.sourceFile) := by
  match outcome with
  | .ok .completed after => rfl
  | .ok (.broke label) after => rfl
  | .error report after =>
      refine Prod.ext ?_ rfl
      exact congrArg Except.error (report.unplaced_attachSource interpreter.sourceFile source)

/-- Reports that differ in places only lead to the same ending without them. -/
theorem unplaced_report {report report' : Diagnostic}
    (h : report.relocate Location.erase = report'.relocate Location.erase) (file : Option String)
    (source other : String) (machine : Machine) :
    Ending.unplaced (.error (report.attachSource file source), machine, file) =
      Ending.unplaced (.error (report'.attachSource file other), machine, file) := by
  have hsame : (report.attachSource file source).unplaced = (report'.attachSource file other).unplaced :=
    calc (report.attachSource file source).unplaced
        = report.unplaced := report.unplaced_attachSource file source
      _ = (report.relocate Location.erase).unplaced := (report.unplaced_relocate Location.erase).symm
      _ = (report'.relocate Location.erase).unplaced := congrArg Diagnostic.unplaced h
      _ = report'.unplaced := report'.unplaced_relocate Location.erase
      _ = (report'.attachSource file other).unplaced := (report'.unplaced_attachSource file other).symm
  exact congrArg (fun unplaced => (Except.error unplaced, machine, file)) hsame

theorem checkProgram_of_sameBlock {program program' : Program}
    (h : Parser.SameBlock program.body program'.body) (interpreter : Interpreter) :
    (interpreter.checkProgram program).1.map (Diagnostic.relocate Location.erase) =
      (interpreter.checkProgram program').1.map (Diagnostic.relocate Location.erase) := by
  rw [checkProgram, checkProgram]
  split
  · rw [← List.head?_map, ← List.head?_map, LabelCheck.errors_of_sameBlock h]
  · rfl

theorem block_of_sameBlock {stmts stmts' : List Stmt} (h : Parser.SameBlock stmts stmts')
    (interpreter : Interpreter) (source other : String) (fuel : Nat) (machine : Machine) :
    ((Exec.block fuel stmts machine).map (interpreter.ending source)).map Ending.unplaced =
      ((Exec.block fuel stmts' machine).map (interpreter.ending other)).map Ending.unplaced := by
  have herase : ∀ (source : String) (stmts : List Stmt),
      ((Exec.block fuel stmts machine).map (interpreter.ending source)).map Ending.unplaced =
        (Exec.block fuel (relocateBlock Location.erase stmts) machine).map fun outcome =>
          ((finish outcome).1.mapError Diagnostic.unplaced, (finish outcome).2, interpreter.sourceFile) := by
    intro source stmts
    rw [Exec.block_relocate, Option.map_map, Option.map_map]
    refine congrArg (Option.map · _) (funext fun outcome => ?_)
    exact unplaced_ending interpreter source outcome
  rw [herase, herase, h]

/-- Texts that are alike have the same runs, but for the places of reports. -/
theorem seen_alike {source other : String} (h : AlikeTexts source other) (interpreter : Interpreter)
    (fuel : Nat) :
    (seen (interpreter.runSource fuel source)).map Ending.unplaced =
      (seen (interpreter.runSource fuel other)).map Ending.unplaced := by
  rcases h.parse interpreter.machine.log interpreter.machine.log with
    ⟨program, program', state, state', hparse, hparse', hsame⟩ |
    ⟨report, report', state, state', hparse, hparse', hsame⟩
  · rw [seen_of_parse hparse, seen_of_parse hparse']
    have hfirst := checkProgram_of_sameBlock hsame interpreter
    cases hreport : (interpreter.checkProgram program).1 with
    | none =>
        rw [hreport, eq_comm, Option.map_none, Option.map_eq_none_iff] at hfirst
        rw [hfirst]
        exact block_of_sameBlock hsame interpreter source other fuel interpreter.machine.quiet
    | some report =>
        rw [hreport, eq_comm, Option.map_some, Option.map_eq_some_iff] at hfirst
        obtain ⟨report', hreport', hplaces⟩ := hfirst
        rw [hreport']
        exact congrArg some (unplaced_report hplaces.symm _ source other _)
  · rw [seen_of_report hparse, seen_of_report hparse']
    exact congrArg some (unplaced_report hsame _ source other _)

/-- **Reformatting.** Two texts without lexical errors have the same kinds and characters of tokens, once
blanks are left out. Then both are parsed, as programs that differ in places only and whose labels are
reported alike but for places; or both are rejected, with reports that differ in places only. And
whatever the interpreter and the budget, both runs end or neither does, with the same result but for
the place and the line of a report, and with the same machine but for its log. -/
theorem reformatting_keeps_meaning (source other : String) (ts us : List Token)
    (hsource : tokenize source = .ok ts) (hother : tokenize other = .ok us)
    (hshapes : (ts.filter (·.kind ≠ .space)).map Token.shape =
      (us.filter (·.kind ≠ .space)).map Token.shape) :
    (∀ log log',
      (∃ program program' state state', Parser.parse source log = .ok program state ∧
        Parser.parse other log' = .ok program' state' ∧
        relocateBlock Location.erase program.body = relocateBlock Location.erase program'.body ∧
        (LabelCheck.errors program).map (Diagnostic.relocate Location.erase) =
          (LabelCheck.errors program').map (Diagnostic.relocate Location.erase)) ∨
      ∃ report report' state state', Parser.parse source log = .error (.report report) state ∧
        Parser.parse other log' = .error (.report report') state' ∧
        report.relocate Location.erase = report'.relocate Location.erase) ∧
    ∀ interpreter fuel, (seen (runSource fuel source interpreter)).map Ending.unplaced =
      (seen (runSource fuel other interpreter)).map Ending.unplaced := by
  have halike : AlikeTexts source other := alikeTexts_of_shapes hsource hother hshapes
  refine ⟨fun log log' => ?_, fun interpreter fuel => seen_alike halike interpreter fuel⟩
  rcases halike.parse log log' with ⟨program, program', state, state', hparse, hparse', hsame⟩ | hreports
  · exact .inl ⟨program, program', state, state', hparse, hparse', hsame,
      LabelCheck.errors_of_sameBlock hsame⟩
  · exact .inr hreports

/-- One statement on a line, and the same one in small letters, with a comment and a line break. -/
theorem reformatting_keeps_meaning_print :
    tokenize "PRINT x;" ≠ tokenize "print # a name\n x ;" ∧
      (seen (runSource 9 "PRINT x;" (fresh {} none {} {}))).map Ending.unplaced =
        (seen (runSource 9 "print # a name\n x ;" (fresh {} none {} {}))).map Ending.unplaced := by
  have hline : tokenize "PRINT x;" = .ok [{ kind := .printWord, location := ⟨1, 1, none⟩ },
      { kind := .space, location := ⟨1, 6, none⟩ },
      { kind := .identifier, text := some "x", location := ⟨1, 7, none⟩ },
      { kind := .semicolon, location := ⟨1, 8, none⟩ },
      { kind := .endOfText, location := ⟨1, 9, none⟩ }] := by cbv
  have hlines : tokenize "print # a name\n x ;" = .ok [{ kind := .printWord, location := ⟨1, 1, none⟩ },
      { kind := .space, location := ⟨1, 6, none⟩ },
      { kind := .identifier, text := some "x", location := ⟨2, 2, none⟩ },
      { kind := .space, location := ⟨2, 3, none⟩ },
      { kind := .semicolon, location := ⟨2, 4, none⟩ },
      { kind := .endOfText, location := ⟨2, 5, none⟩ }] := by cbv
  have hmeaning := reformatting_keeps_meaning _ _ _ _ hline hlines (by decide)
  refine ⟨?_, hmeaning.2 (fresh {} none {} {}) 9⟩
  rw [hline, hlines]
  decide

end Interpreter
end LoopScript
