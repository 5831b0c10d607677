import Mathlib
import LoopScript.Proofs.Acceptance
import LoopScript.Proofs.Indifference
import LoopScript.Proofs.LabelCoverage

/-! Checking the labels first makes failures of the text harmless. In a session no loop is running
between two runs, so that the check covers the run that follows it; a failure that comes from the text
of a program alone is then found before anything is run, and leaves everything as it was. What is run
all the same is run as without the check, which leaves no trace but events. -/

namespace LoopScript

open Diagnostic (Kind)

/-- The kinds of failures that come from the text of a program alone. -/
def Diagnostic.Kind.IsTextual (kind : Kind) : Prop :=
  kind = .lexical ∨ kind = .grammatical ∨ kind = .breakOutsideLoop ∨ kind = .undefinedLabel

theorem Diagnostic.Kind.IsTextual.not_dynamic {kind : Kind} (h : kind.IsTextual) :
    kind.isDynamic = false := by
  rcases h with rfl | rfl | rfl | rfl <;> rfl

@[simp]
theorem Diagnostic.attachSource_kind (file : Option String) (source : String) (report : Diagnostic) :
    (report.attachSource file source).kind = report.kind := by
  unfold attachSource
  split <;> rfl

namespace LabelCheck

theorem isTextual_of_breakCause? {scope : Scope} {target : Option String} {cause : Diagnostic.Cause}
    (h : breakCause? scope target = some cause) : cause.kind.IsTextual := by
  unfold breakCause? at h
  split at h
  · obtain rfl := Option.some.inj h
    exact .inr (.inr (.inl rfl))
  · cases h
  · split at h
    · cases h
    · obtain rfl := Option.some.inj h
      exact .inr (.inr (.inr rfl))

mutual

theorem isTextual_of_mem_stmtErrors {scope : Scope} {report : Diagnostic} :
    (stmt : Stmt) → report ∈ stmtErrors scope stmt → report.kind.IsTextual
  | .loop _ body _, h => isTextual_of_mem_blockErrors body (by rwa [stmtErrors] at h)
  | .leave target location, h => by
      rw [stmtErrors, Option.mem_toList, Option.map_eq_some_iff] at h
      obtain ⟨cause, hcause, rfl⟩ := h
      exact isTextual_of_breakCause? hcause
  | .cond _ thenBranch elseBranch, h => by
      rw [stmtErrors, List.mem_append] at h
      rcases h with h | h
      · exact isTextual_of_mem_blockErrors thenBranch h
      · match elseBranch with
        | none => exact absurd h List.not_mem_nil
        | some branch => exact isTextual_of_mem_blockErrors branch h
  | .read _ _, h => absurd h List.not_mem_nil
  | .print _ _, h => absurd h List.not_mem_nil
  | .assign _ _ _, h => absurd h List.not_mem_nil

theorem isTextual_of_mem_blockErrors {scope : Scope} {report : Diagnostic} :
    (stmts : List Stmt) → report ∈ blockErrors scope stmts → report.kind.IsTextual
  | [], h => absurd h List.not_mem_nil
  | first :: rest, h => by
      rw [blockErrors, List.mem_append] at h
      rcases h with h | h
      · exact isTextual_of_mem_stmtErrors first h
      · exact isTextual_of_mem_blockErrors rest h

end

end LabelCheck

namespace Interpreter

/-- An interpreter as a session starts with it, for some settings, file and output. -/
def fresh (settings : RunSettings) (file : Option String) (output : Output) (log : Log) :
    Interpreter where
  machine := { (ofSettings settings).machine with output := output, log := log }
  checkLabels := settings.checkLabels
  sourceFile := file

/-- The interpreters of a session: whatever has been run before, with whatever success, and whatever
input it was given. -/
inductive Reachable : Interpreter → Prop
  | fresh (settings : RunSettings) (file : Option String) (output : Output) (log : Log) :
      Reachable (fresh settings file output log)
  | setInput {interpreter : Interpreter} (bytes : List UInt8) (earlier : Reachable interpreter) :
      Reachable (interpreter.setInput bytes)
  | runSource {interpreter after : Interpreter} {fuel : Nat} {source : String}
      {result : Except Diagnostic Unit} (earlier : Reachable interpreter)
      (hrun : interpreter.runSource fuel source = some (result, after)) : Reachable after

/-- What is left at the end of a run besides the events. -/
abbrev Ending := Except Diagnostic Unit × Machine × Option String

def ending (interpreter : Interpreter) (source : String) (outcome : Outcome) : Ending :=
  (interpreter.attach source (finish outcome).1, (finish outcome).2, interpreter.sourceFile)

/-- What can be seen of a run besides the events: its result, and the machine and the file that it
leaves. -/
def seen (run : Run) : Option (Except Diagnostic Unit × Machine × Option String) :=
  run.map fun (result, after) => (result, after.machine.quiet, after.sourceFile)

/-- A run whose report carries its line of the text. -/
def attached (source : String) (run : Run) : Run :=
  run.map fun (result, after) => (after.attach source result, after)

/-! ### What a run can do -/

/-- Machines that are alike but for their logs. -/
theorem eq_of_quiet_eq {machine machine' : Machine} (h : machine'.quiet = machine.quiet) :
    machine' = { machine with log := machine'.log } := by
  cases machine
  cases machine'
  simp only [Machine.quiet, Machine.mk.injEq] at h ⊢
  simpa using h

/-- A run stops at the first failure of its text, and has recorded events at most; or else it runs
the program on a machine that is as before but for its log. -/
theorem runSource_cases (fuel : Nat) (source : String) (interpreter : Interpreter) :
    (∃ state, Parser.parse source interpreter.machine.log = .error .outOfFuel state ∧
      interpreter.runSource fuel source = none) ∨
    (∃ report state machine,
      Parser.parse source interpreter.machine.log = .error (.report report) state ∧
      machine.quiet = interpreter.machine.quiet ∧
      interpreter.runSource fuel source =
        some (.error (report.attachSource interpreter.sourceFile source),
          interpreter.withMachine machine)) ∨
    (∃ program state report rest machine,
      Parser.parse source interpreter.machine.log = .ok program state ∧
      interpreter.checkLabels = true ∧ LabelCheck.errors program = report :: rest ∧
      machine.quiet = interpreter.machine.quiet ∧
      interpreter.runSource fuel source =
        some (.error (report.attachSource interpreter.sourceFile source),
          interpreter.withMachine machine)) ∨
    ∃ program state machine, Parser.parse source interpreter.machine.log = .ok program state ∧
      (interpreter.checkLabels = true → LabelCheck.errors program = []) ∧
      machine.quiet = interpreter.machine.quiet ∧
      interpreter.runSource fuel source =
        attached source ((interpreter.withMachine machine).execute fuel program) := by
  cases hparse : Parser.parse source interpreter.machine.log with
  | error failure state =>
      cases failure with
      | outOfFuel =>
          refine .inl ⟨state, rfl, ?_⟩
          simp only [runSource, hparse]
      | report report =>
          refine .inr (.inl ⟨report, state, { interpreter.machine with log := state.log }, rfl, rfl, ?_⟩)
          simp only [runSource, hparse]
          rfl
  | ok program state =>
      refine .inr (.inr ?_)
      cases hcheck : interpreter.checkLabels with
      | false =>
          refine .inr ⟨program, state, { interpreter.machine with log := state.log }, rfl, nofun, rfl, ?_⟩
          simp only [runSource, hparse, checkProgram, withMachine, hcheck, Bool.false_eq_true, if_false]
          rfl
      | true =>
          have hquiet : ((LabelCheck.events program).foldl Machine.record
              { interpreter.machine with log := state.log }).quiet = interpreter.machine.quiet :=
            Exec.quiet_foldl_record _ _
          cases herrors : LabelCheck.errors program with
          | nil =>
              refine .inr ⟨program, state, _, rfl, fun _ => herrors, hquiet, ?_⟩
              simp only [runSource, hparse, checkProgram, withMachine, hcheck, if_true, herrors,
                List.head?_nil]
              rfl
          | cons report rest =>
              refine .inl ⟨program, state, report, rest, _, rfl, rfl, herrors, hquiet, ?_⟩
              simp only [runSource, hparse, checkProgram, withMachine, hcheck, if_true, herrors,
                List.head?_cons]
              rfl

/-! ### Between the runs of a session -/

theorem execute_loops {fuel : Nat} {program : Program} {interpreter after : Interpreter}
    {result : Except Diagnostic Unit}
    (h : interpreter.execute fuel program = some (result, after)) : after.machine.loops = [] := by
  obtain ⟨outcome, -, -, rfl⟩ := execute_iff.mp ⟨fuel, h⟩
  exact Exec.finish_loops outcome

theorem loops_of_quiet_eq {machine machine' : Machine} (h : machine'.quiet = machine.quiet) :
    machine'.loops = machine.loops :=
  (congrArg Machine.loops h : machine'.quiet.loops = machine.quiet.loops)

/-- No loop is running between two runs of a session, also after runs that failed. -/
theorem Reachable.loops {interpreter : Interpreter} (h : Reachable interpreter) :
    interpreter.machine.loops = [] := by
  induction h with
  | fresh => rfl
  | setInput _ _ ih => exact ih
  | @runSource interpreter after fuel source result _ hrun ih =>
      rcases runSource_cases fuel source interpreter with
        ⟨_, -, hnone⟩ | ⟨_, _, machine, -, hquiet, hsome⟩ | ⟨_, _, _, _, machine, -, -, -, hquiet, hsome⟩ |
        ⟨program, _, machine, -, -, -, hexecute⟩
      · rw [hnone] at hrun
        cases hrun
      · rw [hsome] at hrun
        obtain ⟨-, rfl⟩ := Prod.mk.inj (Option.some.inj hrun)
        exact (loops_of_quiet_eq hquiet).trans ih
      · rw [hsome] at hrun
        obtain ⟨-, rfl⟩ := Prod.mk.inj (Option.some.inj hrun)
        exact (loops_of_quiet_eq hquiet).trans ih
      · rw [hexecute] at hrun
        obtain ⟨⟨result', after'⟩, hrun', hpair⟩ := Option.map_eq_some_iff.mp hrun
        obtain ⟨-, rfl⟩ := Prod.mk.inj hpair
        exact execute_loops hrun'

/-! ### The same run without the check -/

theorem finish_quiet (outcome : Outcome) :
    finish (Exec.quietOutcome outcome) = ((finish outcome).1, (finish outcome).2.quiet) := by
  match outcome with
  | .error report after => rfl
  | .ok .completed after => rfl
  | .ok (.broke label) after => rfl

/-- What can be seen of a run of a program hangs on its machine without the log. -/
theorem seen_execute (fuel : Nat) (program : Program) (source : String) (interpreter : Interpreter) :
    seen (attached source (interpreter.execute fuel program)) =
      (Exec.block fuel program.body interpreter.machine.quiet).map fun outcome =>
        (interpreter.attach source (finish outcome).1, (finish outcome).2,
          interpreter.sourceFile) := by
  have hstart : interpreter.machine.quiet =
      (interpreter.machine.record (.executing program.body.length)).quiet := rfl
  rw [hstart, Exec.block_quiet, execute, seen, attached, Option.map_map, Option.map_map, Option.map_map]
  refine congrArg (Option.map · _) (funext fun outcome => ?_)
  simp only [Function.comp_apply, finish_quiet]
  rfl

theorem seen_of_report {source : String} {interpreter : Interpreter} {report : Diagnostic}
    {state : Parser.State}
    (h : Parser.parse source interpreter.machine.log = .error (.report report) state) (fuel : Nat) :
    seen (interpreter.runSource fuel source) =
      some (.error (report.attachSource interpreter.sourceFile source), interpreter.machine.quiet,
        interpreter.sourceFile) := by
  simp only [runSource, h]
  rfl

/-- What can be seen of a run of a text that is parsed: the first report of the check, if there is one,
or else the run of its statements. -/
theorem seen_of_parse {source : String} {interpreter : Interpreter} {program : Program}
    {state : Parser.State} (h : Parser.parse source interpreter.machine.log = .ok program state)
    (fuel : Nat) :
    seen (interpreter.runSource fuel source) =
      match (interpreter.checkProgram program).1 with
      | some report =>
          some (.error (report.attachSource interpreter.sourceFile source), interpreter.machine.quiet,
            interpreter.sourceFile)
      | none =>
          (Exec.block fuel program.body interpreter.machine.quiet).map (interpreter.ending source) := by
  rcases runSource_cases fuel source interpreter with
    ⟨_, hother, -⟩ | ⟨_, _, _, hother, -⟩ |
    ⟨other, _, report, _, machine, hother, hcheck, herrors, hquiet, hrun⟩ |
    ⟨other, _, machine, hother, herrors, hquiet, hrun⟩
  · rw [h] at hother
    cases hother
  · rw [h] at hother
    cases hother
  · rw [h] at hother
    obtain ⟨rfl, -⟩ := EStateM.Result.ok.inj hother
    have hfirst : (interpreter.checkProgram program).1 = some report := by
      rw [checkProgram, if_pos hcheck, herrors]
      rfl
    rw [hrun, hfirst, ← hquiet]
    rfl
  · rw [h] at hother
    obtain ⟨rfl, -⟩ := EStateM.Result.ok.inj hother
    have hfirst : (interpreter.checkProgram program).1 = none := by
      rw [checkProgram]
      split
      · next hcheck => rw [herrors hcheck]; rfl
      · rfl
    have hsame : (interpreter.withMachine machine).machine.quiet = interpreter.machine.quiet := hquiet
    rw [hrun, hfirst, seen_execute, hsame]
    rfl

/-- A run fails as the text alone says only before anything is run. -/
theorem not_textual_of_execute {fuel : Nat} {program : Program} {source : String}
    {interpreter after : Interpreter} {report : Diagnostic} (hloops : interpreter.machine.loops = [])
    (herrors : LabelCheck.errors program = [])
    (h : attached source (interpreter.execute fuel program) = some (.error report, after)) :
    ¬ report.kind.IsTextual := by
  intro htextual
  obtain ⟨⟨result, after'⟩, hexecute, hpair⟩ := Option.map_eq_some_iff.mp h
  obtain ⟨hresult, -⟩ := Prod.mk.inj hpair
  cases result with
  | ok => cases hresult
  | error raised =>
      obtain rfl := Except.error.inj hresult
      rw [Diagnostic.attachSource_kind] at htextual
      obtain ⟨outcome, hruns, hfinish, -⟩ := execute_iff.mp ⟨fuel, hexecute⟩
      obtain ⟨last, rfl⟩ := Exec.finish_eq_error hfinish
      have hstart : (interpreter.machine.record (.executing program.body.length)).loops = [] := hloops
      have hmem := Exec.mem_errors_of_runs hstart hruns htextual.not_dynamic
      rw [herrors] at hmem
      exact List.not_mem_nil hmem

/-- **Checked runs.** In a session that checks labels, a failure that comes from the text of a program
alone is the one that parsing reports or else the first one that the check reports, and everything but
the log is as before. Any other way to end, and any run that does not end, is that of the run without
the check. -/
theorem checked_run_fails_before_or_runs_unchecked (interpreter : Interpreter)
    (hreachable : Reachable interpreter) (hcheck : interpreter.checkLabels = true) (fuel : Nat)
    (source : String) :
    (∀ report after, interpreter.runSource fuel source = some (.error report, after) →
      report.kind.IsTextual →
      ((∃ failure state,
          Parser.parse source interpreter.machine.log = .error (.report failure) state ∧
          report = failure.attachSource interpreter.sourceFile source) ∨
        ∃ program state first others,
          Parser.parse source interpreter.machine.log = .ok program state ∧
          LabelCheck.errors program = first :: others ∧
          report = first.attachSource interpreter.sourceFile source) ∧
      after = { interpreter with machine := { interpreter.machine with log := after.machine.log } }) ∧
    ((∀ report after, interpreter.runSource fuel source = some (.error report, after) →
        ¬ report.kind.IsTextual) →
      seen (interpreter.runSource fuel source) =
        seen ({ interpreter with checkLabels := false }.runSource fuel source)) := by
  constructor
  · intro report after hrun htextual
    rcases runSource_cases fuel source interpreter with
      ⟨_, -, hnone⟩ | ⟨failure, state, machine, hparse, hquiet, hsome⟩ |
      ⟨program, state, first, others, machine, hparse, -, herrors, hquiet, hsome⟩ |
      ⟨program, _, machine, -, herrors, hquiet, hexecute⟩
    · rw [hnone] at hrun
      cases hrun
    · rw [hsome] at hrun
      obtain ⟨hreport, rfl⟩ := Prod.mk.inj (Option.some.inj hrun)
      refine ⟨.inl ⟨failure, state, hparse, (Except.error.inj hreport).symm⟩, ?_⟩
      exact congrArg interpreter.withMachine (eq_of_quiet_eq hquiet)
    · rw [hsome] at hrun
      obtain ⟨hreport, rfl⟩ := Prod.mk.inj (Option.some.inj hrun)
      refine ⟨.inr ⟨program, state, first, others, hparse, herrors, (Except.error.inj hreport).symm⟩, ?_⟩
      exact congrArg interpreter.withMachine (eq_of_quiet_eq hquiet)
    · have hloops : (interpreter.withMachine machine).machine.loops = [] :=
        (loops_of_quiet_eq hquiet).trans hreachable.loops
      rw [hexecute] at hrun
      exact absurd htextual (not_textual_of_execute hloops (herrors hcheck) hrun)
  · intro hother
    rcases runSource_cases fuel source interpreter with
      ⟨_, hparse, hnone⟩ | ⟨failure, state, machine, hparse, hquiet, hsome⟩ |
      ⟨program, _, first, others, machine, hparse, -, herrors, -, hsome⟩ |
      ⟨program, state, machine, hparse, -, hquiet, hexecute⟩
    · have hfree : { interpreter with checkLabels := false }.runSource fuel source = none := by
        simp only [runSource, hparse]
      rw [hnone, hfree]
    · have hfree : seen ({ interpreter with checkLabels := false }.runSource fuel source) =
          some (.error (failure.attachSource interpreter.sourceFile source),
            interpreter.machine.quiet, interpreter.sourceFile) := by
        simp only [runSource, hparse]
        rfl
      rw [hsome, hfree, ← hquiet]
      rfl
    · have hmem : first ∈ LabelCheck.errors program := herrors ▸ List.mem_cons_self
      have htextual := LabelCheck.isTextual_of_mem_blockErrors program.body hmem
      refine absurd ?_ (hother _ _ hsome)
      rwa [Diagnostic.attachSource_kind]
    · have hfree : { interpreter with checkLabels := false }.runSource fuel source =
          attached source (({ interpreter with checkLabels := false }.withMachine
            { interpreter.machine with log := state.log }).execute fuel program) := by
        simp only [runSource, hparse, checkProgram, withMachine, Bool.false_eq_true, if_false]
        rfl
      rw [hexecute, hfree, seen_execute, seen_execute]
      have hsame : (interpreter.withMachine machine).machine.quiet = interpreter.machine.quiet := hquiet
      rw [hsame]
      rfl

theorem parse_lone_break (log : Log) : ∃ state,
    Parser.parse "BREAK;" log = .ok { body := [.leave none ⟨1, 1, none⟩] } state := by
  have htokens : tokenize "BREAK;" = .ok [{ kind := .breakWord, location := ⟨1, 1, none⟩ },
      { kind := .semicolon, location := ⟨1, 6, none⟩ },
      { kind := .endOfText, location := ⟨1, 7, none⟩ }] := by cbv
  obtain ⟨rest, hupcoming⟩ := Reader.upcoming_of_tokens htokens
  have hstart : Parser.State.upcoming ⟨Reader.ofString "BREAK;", log⟩ = _ ++ₛ rest := hupcoming
  have hbody : Grammar.Block [{ kind := .breakWord, location := ⟨1, 1, none⟩ },
      { kind := .semicolon, location := ⟨1, 6, none⟩ }] [.leave none ⟨1, 1, none⟩] :=
    .cons (.leave rfl) rfl .nil
  obtain ⟨state, hstate, -⟩ := Parser.program_of_derives (.mk hbody rfl) (Nat.le_of_ble_eq_true rfl) hstart
  exact ⟨state, hstate⟩

/-- A lone BREAK, in a session that has just been given input. -/
theorem checked_run_stops_at_lone_break :
    ∃ report after, ((fresh {} none {} {}).setInput [49]).runSource 9 "BREAK;" =
        some (.error report, after) ∧
      report.kind = .breakOutsideLoop ∧
      after = { (fresh {} none {} {}).setInput [49] with
        machine := { ((fresh {} none {} {}).setInput [49]).machine with log := after.machine.log } } := by
  have hchecked := checked_run_fails_before_or_runs_unchecked ((fresh {} none {} {}).setInput [49])
    (.setInput [49] (.fresh {} none {} {})) rfl 9 "BREAK;"
  obtain ⟨state, hparse⟩ := parse_lone_break ((fresh {} none {} {}).setInput [49]).machine.log
  rcases runSource_cases 9 "BREAK;" ((fresh {} none {} {}).setInput [49]) with
    ⟨_, h, -⟩ | ⟨_, _, _, h, -⟩ | ⟨program, _, report, _, machine, h, -, herrors, -, hrun⟩ |
    ⟨program, _, _, h, herrors, -⟩
  · rw [hparse] at h
    cases h
  · rw [hparse] at h
    cases h
  · rw [hparse] at h
    obtain ⟨rfl, -⟩ := EStateM.Result.ok.inj h
    obtain ⟨rfl, -⟩ := List.cons.inj herrors
    have htextual : Kind.breakOutsideLoop.IsTextual := .inr (.inr (.inl rfl))
    exact ⟨_, _, hrun, rfl, (hchecked.1 _ _ hrun htextual).2⟩
  · rw [hparse] at h
    obtain ⟨rfl, -⟩ := EStateM.Result.ok.inj h
    cases herrors rfl

end Interpreter
end LoopScript
