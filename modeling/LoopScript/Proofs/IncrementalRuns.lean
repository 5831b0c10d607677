import LoopScript.Proofs.CheckedRuns
import LoopScript.Proofs.Seams

/-! Programs run one after the other are one program. Two texts that are accepted, the first without an
unfinished line, can be run one by one or as one text. If the first run fails, the joined text fails in
the same way and on the same machine. If not, the first run leaves a machine with no loop running and
no BREAK on its way, from which the statements of the second text go on in either case; their reports
then differ in the number of the line alone, and the line itself is the same. -/

namespace LoopScript

open Stmt (relocateBlock)

namespace Exec

/-- Statements behind others are run on the machine that these leave, if these complete. -/
theorem runs_append {stmts others : List Stmt} {machine : Machine} {outcome : Outcome} :
    Runs (.block (stmts ++ others)) machine outcome ↔
      (∃ middle, Runs (.block stmts) machine (.ok .completed middle) ∧
        Runs (.block others) middle outcome) ∨
      Runs (.block stmts) machine outcome ∧ ∀ after, outcome ≠ .ok .completed after := by
  induction stmts generalizing machine with
  | nil =>
      constructor
      · intro h
        exact .inl ⟨machine, .nil, h⟩
      · rintro (⟨middle, hnil, h⟩ | ⟨hnil, hstops⟩)
        · cases hnil
          exact h
        · cases hnil
          exact absurd rfl (hstops machine)
  | cons first rest ih =>
      rw [List.cons_append]
      constructor
      · intro h
        cases h with
        | next hfirst hrest =>
            rcases ih.mp hrest with ⟨middle, hmiddle, hothers⟩ | ⟨hstops, hother⟩
            · exact .inl ⟨middle, .next hfirst hmiddle, hothers⟩
            · exact .inr ⟨.next hfirst hstops, hother⟩
        | stop hfirst hother => exact .inr ⟨.stop hfirst hother, hother⟩
      · rintro (⟨middle, hmiddle, hothers⟩ | ⟨hstops, hother⟩)
        · cases hmiddle with
          | next hfirst hrest => exact .next hfirst (ih.mpr (.inl ⟨middle, hrest, hothers⟩))
          | stop _ hother => exact absurd rfl (hother middle)
        · cases hstops with
          | next hfirst hrest => exact .next hfirst (ih.mpr (.inr ⟨hrest, hother⟩))
          | stop hfirst _ => exact .stop hfirst hother

theorem runs_relocate {move : Location → Location} {stmts : List Stmt} {machine : Machine}
    {outcome : Outcome} :
    Runs (.block (relocateBlock move stmts)) machine outcome ↔
      ∃ ending, Runs (.block stmts) machine ending ∧ outcome = relocateOutcome move ending := by
  constructor
  · intro h
    obtain ⟨fuel, hrun⟩ := runs_iff.mp h
    rw [within, block_relocate] at hrun
    obtain ⟨ending, hending, houtcome⟩ := Option.map_eq_some_iff.mp hrun
    exact ⟨ending, runs_of_block hending, houtcome.symm⟩
  · rintro ⟨ending, h, rfl⟩
    obtain ⟨fuel, hrun⟩ := runs_iff.mp h
    refine runs_iff.mpr ⟨fuel, ?_⟩
    rw [within] at hrun ⊢
    rw [block_relocate, hrun]
    rfl

/-- A move that changes no place in the statements changes none in their reports. -/
theorem location_of_runs {move : Location → Location} {stmts : List Stmt} {machine after : Machine}
    {report : Diagnostic} (hfixed : relocateBlock move stmts = stmts)
    (h : Runs (.block stmts) machine (.error report after)) : move report.location = report.location := by
  have hmoved : Runs (.block (relocateBlock move stmts)) machine
      (relocateOutcome move (.error report after)) := runs_relocate.mpr ⟨_, h, rfl⟩
  rw [hfixed] at hmoved
  have hsame := (EStateM.Result.error.inj (runs_unique hmoved h)).1
  exact congrArg Diagnostic.location hsame

theorem quietOutcome_of_runs {stmts : List Stmt} {machine : Machine} {outcome : Outcome}
    (h : Runs (.block stmts) machine.quiet outcome) : quietOutcome outcome = outcome := by
  obtain ⟨fuel, hrun⟩ := runs_iff.mp h
  have hquiet := block_quiet fuel stmts machine.quiet
  have hsame : machine.quiet.quiet = machine.quiet := rfl
  rw [within] at hrun
  rw [hsame, hrun] at hquiet
  exact (Option.some.inj hquiet).symm

end Exec

/-! ### The lines of reports -/

open Text (EndsLine)

theorem Diagnostic.attachSource_lower {first : String} {report : Diagnostic}
    (hline : EndsLine first.toList) (file : Option String) (second : String)
    (hplace : 1 ≤ report.location.line) :
    (report.relocate (Location.lower (first.toList.count '\n'))).attachSource file (first ++ second) =
      (report.attachSource file second).relocate (Location.lower (first.toList.count '\n')) := by
  have hknown : report.location.isKnown = true := decide_eq_true hplace
  have hlower : (report.location.lower (first.toList.count '\n')).isKnown = true :=
    decide_eq_true (Nat.lt_of_lt_of_le hplace (Nat.le_add_right _ _))
  have htext := Text.lineAt?_append_lower hline second hplace
  simp only [attachSource, relocate, hknown, hlower, if_true]
  rw [Location.lower, htext]
  rfl

theorem Diagnostic.attachSource_append {first : String} {report : Diagnostic}
    (hline : EndsLine first.toList) (file : Option String) (second : String)
    (hplace : report.location.line ≤ first.toList.count '\n') :
    report.attachSource file (first ++ second) = report.attachSource file first := by
  rw [attachSource, attachSource, Text.lineAt?_append_of_le hline second hplace]

namespace Parser

/-- A program reports about lines of its text. -/
theorem line_bounds_of_runs {source : String} {log : Log} {program : Program} {state : State}
    {machine after : Machine} {report : Diagnostic} (hparse : parse source log = .ok program state)
    (h : Exec.Runs (.block program.body) machine (.error report after)) :
    1 ≤ report.location.line ∧
      (EndsLine source.toList → report.location.line ≤ source.toList.count '\n') := by
  -- Places are moved into the bounds: that changes none in the text, and so none in a report.
  constructor
  · have hfixed : relocateBlock (fun place => { place with line := max place.line 1 }) program.body =
        program.body := by
      refine relocateBlock_of_parse hparse _ fun place hfirst _ => ?_
      rw [max_eq_left hfirst]
    have hplace := congrArg Location.line (Exec.location_of_runs hfixed h)
    rw [← hplace]
    exact le_max_right _ 1
  · intro hline
    have hfixed : relocateBlock (fun place =>
        { place with line := min place.line (source.toList.count '\n') }) program.body = program.body := by
      refine relocateBlock_of_parse hparse _ fun place _ hlast => ?_
      rw [min_eq_left (hlast hline)]
    have hplace := congrArg Location.line (Exec.location_of_runs hfixed h)
    rw [← hplace]
    exact min_le_right _ _

end Parser

theorem LabelCheck.blockErrors_append (scope : Scope) (stmts others : List Stmt) :
    blockErrors scope (stmts ++ others) = blockErrors scope stmts ++ blockErrors scope others := by
  induction stmts with
  | nil => rfl
  | cons first rest ih => rw [List.cons_append, blockErrors, blockErrors, ih, List.append_assoc]

namespace Interpreter

open Exec (Runs)

/-- A text is parsed as a program whose labels pass the check. -/
def Accepts (source : String) (program : Program) : Prop :=
  (∃ state, Parser.parse source {} = .ok program state) ∧ LabelCheck.errors program = []

/-- A run of a text ends, and this can be seen then. -/
def EndsWith (interpreter : Interpreter) (source : String) (ending : Ending) : Prop :=
  ∃ fuel, seen (interpreter.runSource fuel source) = some ending

/-- An ending whose report is about a place so many lines further down. -/
def Ending.lower (lines : Nat) (ending : Ending) : Ending :=
  (ending.1.mapError (Diagnostic.relocate (Location.lower lines)), ending.2)

theorem seen_runSource {source : String} {program : Program} (h : Accepts source program) (fuel : Nat)
    (interpreter : Interpreter) :
    seen (interpreter.runSource fuel source) =
      (Exec.block fuel program.body interpreter.machine.quiet).map (interpreter.ending source) := by
  obtain ⟨⟨state, hparse⟩, herrors⟩ := h
  obtain ⟨state', hparse'⟩ := Parser.parse_with_log hparse interpreter.machine.log
  have hpasses : (interpreter.checkProgram program).1 = none := by
    rw [checkProgram, herrors]
    split <;> rfl
  rw [seen_of_parse hparse', hpasses]

theorem endsWith_iff {source : String} {program : Program} (h : Accepts source program)
    {interpreter : Interpreter} {last : Ending} :
    EndsWith interpreter source last ↔
      ∃ outcome, Runs (.block program.body) interpreter.machine.quiet outcome ∧
        interpreter.ending source outcome = last := by
  constructor
  · rintro ⟨fuel, hseen⟩
    rw [seen_runSource h] at hseen
    obtain ⟨outcome, hrun, hlast⟩ := Option.map_eq_some_iff.mp hseen
    exact ⟨outcome, Exec.runs_of_block hrun, hlast⟩
  · rintro ⟨outcome, hruns, hlast⟩
    obtain ⟨fuel, hrun⟩ := Exec.runs_iff.mp hruns
    refine ⟨fuel, ?_⟩
    rw [seen_runSource h]
    exact Option.map_eq_some_iff.mpr ⟨outcome, hrun, hlast⟩

/-- Two accepted texts make up one. -/
theorem Accepts.append {first second : String} {program program' : Program}
    (hline : EndsLine first.toList) (h : Accepts first program) (h' : Accepts second program') :
    Accepts (first ++ second)
      { body := program.body ++
        relocateBlock (Location.lower (first.toList.count '\n')) program'.body } := by
  obtain ⟨⟨state, hparse⟩, herrors⟩ := h
  obtain ⟨⟨state', hparse'⟩, herrors'⟩ := h'
  refine ⟨Parser.parse_append hline hparse hparse' {}, ?_⟩
  rw [LabelCheck.errors] at herrors herrors' ⊢
  rw [LabelCheck.blockErrors_append, herrors, LabelCheck.blockErrors_relocate, herrors']
  rfl

/-- A run that did not fail has completed, and left no loop running. -/
theorem completed_of_runs {stmts : List Stmt} {interpreter : Interpreter} {source : String}
    {outcome : Outcome} {machine : Machine} {file : Option String}
    (hloops : interpreter.machine.loops = []) (h : Runs (.block stmts) interpreter.machine.quiet outcome)
    (hlast : interpreter.ending source outcome = (.ok (), machine, file)) :
    outcome = .ok .completed machine := by
  have hbalanced : Exec.Balanced interpreter.machine.loops outcome := Exec.balanced_of_runs h
  have hquiet := Exec.quietOutcome_of_runs h
  rw [hloops] at hbalanced
  obtain ⟨hresult, hstate⟩ := Prod.mk.inj hlast
  obtain ⟨hmachine, -⟩ := Prod.mk.inj hstate
  match outcome with
  | .error report after => cases hresult
  | .ok (.broke label) after => exact absurd hbalanced Exec.not_broke_of_balanced_nil
  | .ok .completed after =>
      have hafter : after.quiet = after := (EStateM.Result.ok.inj hquiet).2
      have hnone : after.loops = [] := hbalanced
      have hsame : (finish (.ok .completed after)).2 = after := by
        cases after with
        | mk loops entries symbols input output limit log =>
            obtain rfl : loops = [] := hnone
            obtain rfl : log = {} := (congrArg Machine.log hafter).symm
            rfl
      rw [← hmachine, hsame]

/-- A report about the second text is, in the joined text, about the same line further down. -/
theorem ending_lower {first second : String} {program : Program} {machine : Machine} {outcome : Outcome}
    {interpreter after : Interpreter} (hline : EndsLine first.toList) (h : Accepts second program)
    (hruns : Runs (.block program.body) machine outcome)
    (hfile : after.sourceFile = interpreter.sourceFile) :
    interpreter.ending (first ++ second)
        (Exec.relocateOutcome (Location.lower (first.toList.count '\n')) outcome) =
      (after.ending second outcome).lower (first.toList.count '\n') := by
  obtain ⟨⟨state, hparse⟩, -⟩ := h
  rw [ending, ending, Ending.lower, Exec.finish_relocate, hfile]
  match outcome with
  | .ok .completed last => rfl
  | .ok (.broke label) last => rfl
  | .error report last =>
      have hplace := (Parser.line_bounds_of_runs hparse hruns).1
      have hreport := Diagnostic.attachSource_lower hline interpreter.sourceFile second hplace
      refine Prod.ext ?_ rfl
      show Except.error _ = Except.error _
      rw [hreport, hfile]

/-- A report about the first text is, in the joined text, about the same line. -/
theorem ending_append {first second : String} {program : Program} {machine : Machine} {outcome : Outcome}
    {interpreter : Interpreter} (hline : EndsLine first.toList) (h : Accepts first program)
    (hruns : Runs (.block program.body) machine outcome) :
    interpreter.ending (first ++ second) outcome = interpreter.ending first outcome := by
  obtain ⟨⟨state, hparse⟩, -⟩ := h
  match outcome with
  | .ok .completed last => rfl
  | .ok (.broke label) last => rfl
  | .error report last =>
      have hplace := (Parser.line_bounds_of_runs hparse hruns).2 hline
      have hreport := Diagnostic.attachSource_append hline interpreter.sourceFile second hplace
      refine Prod.ext ?_ rfl
      exact congrArg Except.error hreport

/-- **One run or two.** In a session, a text without an unfinished line is run before another, and both
are accepted. If its run does not fail, the joined text ends as the second one does from there, with
its reports so many lines further down as the first text has newlines; and the joined text ends only
if the second one does. If its run fails, the joined text fails with the same report, and everything
but the log is the same. -/
theorem joined_texts_run_as_two (interpreter : Interpreter) (hreachable : Reachable interpreter)
    (first second : String) (program program' : Program) (hline : EndsLine first.toList)
    (hfirst : Accepts first program) (hsecond : Accepts second program') :
    (∀ fuel after, interpreter.runSource fuel first = some (.ok (), after) →
      ∀ last, EndsWith interpreter (first ++ second) last ↔
        ∃ later, EndsWith after second later ∧ last = later.lower (first.toList.count '\n')) ∧
    ∀ fuel report after, interpreter.runSource fuel first = some (.error report, after) →
      ∀ last, EndsWith interpreter (first ++ second) last ↔
        last = (.error report, after.machine.quiet, after.sourceFile) := by
  have hjoined := hfirst.append hline hsecond
  constructor
  · intro fuel after hrun last
    have hseen : EndsWith interpreter first (.ok (), after.machine.quiet, after.sourceFile) :=
      ⟨fuel, by rw [hrun]; rfl⟩
    obtain ⟨outcome, hruns, hends⟩ := (endsWith_iff hfirst).mp hseen
    obtain rfl := completed_of_runs hreachable.loops hruns hends
    have hfile : after.sourceFile = interpreter.sourceFile := (congrArg (·.2.2) hends).symm
    rw [endsWith_iff hjoined]
    constructor
    · rintro ⟨outcome, hboth, rfl⟩
      rcases Exec.runs_append.mp hboth with ⟨middle, hmiddle, hrest⟩ | ⟨hstops, hother⟩
      · obtain ⟨-, rfl⟩ := EStateM.Result.ok.inj (Exec.runs_unique hruns hmiddle)
        obtain ⟨ending, hending, rfl⟩ := Exec.runs_relocate.mp hrest
        exact ⟨after.ending second ending, (endsWith_iff hsecond).mpr ⟨ending, hending, rfl⟩,
          ending_lower hline hsecond hending hfile⟩
      · exact absurd (Exec.runs_unique hstops hruns) (hother _)
    · rintro ⟨later, hlater, rfl⟩
      obtain ⟨ending, hending, rfl⟩ := (endsWith_iff hsecond).mp hlater
      refine ⟨_, Exec.runs_append.mpr (.inl ⟨_, hruns, ?_⟩), ending_lower hline hsecond hending hfile⟩
      exact Exec.runs_relocate.mpr ⟨ending, hending, rfl⟩
  · intro fuel report after hrun last
    have hseen : EndsWith interpreter first (.error report, after.machine.quiet, after.sourceFile) :=
      ⟨fuel, by rw [hrun]; rfl⟩
    obtain ⟨outcome, hruns, hends⟩ := (endsWith_iff hfirst).mp hseen
    have hfails : ∀ middle, outcome ≠ .ok .completed middle := by
      rintro middle rfl
      cases (Prod.mk.inj hends).1
    have hboth : ∀ others, Runs (.block (program.body ++ others)) interpreter.machine.quiet outcome :=
      fun others => Exec.runs_append.mpr (.inr ⟨hruns, hfails⟩)
    rw [endsWith_iff hjoined]
    constructor
    · rintro ⟨other, hother, rfl⟩
      rw [Exec.runs_unique hother (hboth _), ending_append hline hfirst hruns, hends]
    · rintro rfl
      exact ⟨outcome, hboth _, (ending_append hline hfirst hruns).trans hends⟩

theorem accepts_loop : Accepts "LOOP a: BREAK; REPEAT;\n"
    { body := [.loop (some "a") [.leave none ⟨1, 9, none⟩] ⟨1, 1, none⟩] } :=
  ⟨⟨⟨⟨[], ⟨2, 1, none⟩, []⟩, {}⟩, by cbv⟩, rfl⟩

theorem accepts_print : Accepts "PRINT x;" { body := [.print ["x"] ⟨1, 7, none⟩] } :=
  ⟨⟨⟨⟨[], ⟨1, 9, none⟩, []⟩, {}⟩, by cbv⟩, rfl⟩

/-- A loop that is left at once, and then a name without a number: that is reported for the first line
of the second text, and for the second line of both. -/
theorem joined_texts_run_as_two_unbound :
    ∃ after, (fresh {} none {} {}).runSource 9 "LOOP a: BREAK; REPEAT;\n" = some (.ok (), after) ∧
      ∃ report machine file, EndsWith after "PRINT x;" (.error report, machine, file) ∧
        report.location = ⟨1, 7, none⟩ ∧ report.sourceLine = some "PRINT x;" ∧
        EndsWith (fresh {} none {} {}) ("LOOP a: BREAK; REPEAT;\n" ++ "PRINT x;")
          (.error { report with location := ⟨2, 7, none⟩ }, machine, file) := by
  have hseen : seen ((fresh {} none {} {}).runSource 9 "LOOP a: BREAK; REPEAT;\n") =
      some (.ok (), (fresh {} none {} {}).machine, none) := by
    rw [seen_runSource accepts_loop]
    rfl
  obtain ⟨⟨result, after⟩, hrun, hpair⟩ := Option.map_eq_some_iff.mp hseen
  obtain ⟨rfl, hstate⟩ := Prod.mk.inj hpair
  obtain ⟨hmachine, hfile⟩ := Prod.mk.inj hstate
  have hlater : EndsWith after "PRINT x;"
      (.error (((Diagnostic.Cause.unboundIdentifier "x" []).reportAt ⟨1, 7, none⟩).attachSource none
        "PRINT x;"), (fresh {} none {} {}).machine, none) := by
    refine ⟨9, ?_⟩
    rw [seen_runSource accepts_print, hmachine]
    show some (Except.error (Diagnostic.attachSource after.sourceFile "PRINT x;" _), _, after.sourceFile) = _
    rw [hfile]
    rfl
  have hline : EndsLine "LOOP a: BREAK; REPEAT;\n".toList :=
    .inr ⟨"LOOP a: BREAK; REPEAT;".toList, by decide⟩
  have hjoined := joined_texts_run_as_two (fresh {} none {} {}) (.fresh {} none {} {})
    "LOOP a: BREAK; REPEAT;\n" "PRINT x;" _ _ hline accepts_loop accepts_print
  have htext : Text.lineAt? "PRINT x;" 1 = some "PRINT x;" := by decide
  have hcount : "LOOP a: BREAK; REPEAT;\n".toList.count '\n' = 1 := by decide
  refine ⟨after, hrun, _, _, _, hlater, rfl, congrArg (· <|> none) htext, ?_⟩
  refine (hjoined.1 9 after hrun _).mpr ⟨_, hlater, ?_⟩
  rw [hcount]
  rfl

end Interpreter
end LoopScript
