import LoopScript.Proofs.LoopStack

/-! The label check covers every run.

The check walks the text of a program with the names of the loops around each statement; a run keeps
the labels of the loops that it is in. At every statement that a run reaches the two agree
(`Machine.scope`), because each statement before it left the loops as they were. So a BREAK that
fails in a run is one that the check has reported, with the same message, place and suggestion. -/

namespace LoopScript.Exec

open Diagnostic (Cause)

/-- The reports of the check on the BREAKs of a task, for the names of the loops around it. -/
def Task.labelErrors (scope : LabelCheck.Scope) : Task → List Diagnostic
  | .stmt first => LabelCheck.stmtErrors scope first
  | .block stmts => LabelCheck.blockErrors scope stmts
  | .repeating _ _ body _ => LabelCheck.blockErrors scope body

/-- A failure of a run is one of its values, or one that the check reports. -/
def Task.Covered (task : Task) (machine : Machine) : Outcome → Prop
  | .ok _ _ => True
  | .error report _ => report.kind.isDynamic = true ∨ report ∈ task.labelErrors machine.scope

/-- A part of a task that fails makes the task fail, if the check reports on the part what it reports
on the task. -/
theorem Task.Covered.mono {part task : Task} {machine machine' : Machine} {outcome : Outcome}
    (hreports : ∀ report ∈ part.labelErrors machine.scope, report ∈ task.labelErrors machine'.scope)
    (h : part.Covered machine outcome) : task.Covered machine' outcome := by
  cases outcome with
  | ok flow after => trivial
  | error report after => exact h.imp_right (hreports report)

theorem DataOutcome.covered {machine : Machine} {outcome : Outcome} (task : Task)
    (h : DataOutcome machine outcome) : task.Covered machine outcome := by
  obtain ⟨_, _, _, rfl | ⟨_, hreport, rfl⟩⟩ := h
  · trivial
  · exact Or.inl hreport

theorem covered_leave (target : Option String) (location : Location) (machine : Machine) :
    Task.Covered (.stmt (.leave target location)) machine (leave target location machine) := by
  rcases leave_cases target location machine with
    ⟨inner, label, outer, -, -, -, hleave⟩ | ⟨cause, hcause, hleave⟩
  · rw [hleave]
    trivial
  · rw [hleave]
    refine Or.inr ?_
    rw [Task.labelErrors, LabelCheck.stmtErrors, hcause]
    exact List.mem_singleton.mpr rfl

theorem covered_of_runs {task : Task} {machine : Machine} {outcome : Outcome}
    (h : Runs task machine outcome) : task.Covered machine outcome := by
  induction h with
  | @loop label body location machine outcome _ ih =>
      cases outcome with
      | ok flow after => trivial
      | error report after =>
          rcases ih with hdynamic | hmem
          · exact Or.inl hdynamic
          · refine Or.inr ?_
            rw [Task.labelErrors, inside_scope] at hmem
            rw [Task.labelErrors, LabelCheck.stmtErrors]
            exact hmem
  | leave => exact covered_leave _ _ _
  | read => exact (dataOutcome_readNames _ _ _).covered _
  | print => exact (dataOutcome_printNames _ _ _).covered _
  | assign => exact (dataOutcome_assign _ _ _).covered _
  | condFails heval => exact Or.inl (Expr.isDynamic_of_eval heval)
  | condThen _ _ _ ih =>
      refine ih.mono fun report hreport => ?_
      rw [Task.labelErrors, LabelCheck.stmtErrors]
      exact List.mem_append_left _ hreport
  | condElse _ _ _ ih =>
      refine ih.mono fun report hreport => ?_
      rw [Task.labelErrors, LabelCheck.stmtErrors]
      exact List.mem_append_right _ hreport
  | condSkip _ _ => trivial
  | nil => trivial
  | next hfirst _ _ ihrest =>
      have hscope := scope_eq_of_balanced (balanced_of_runs hfirst)
      refine ihrest.mono fun report hreport => ?_
      rw [hscope] at hreport
      rw [Task.labelErrors, LabelCheck.blockErrors]
      exact List.mem_append_right _ hreport
  | stop _ _ ih =>
      refine ih.mono fun report hreport => ?_
      rw [Task.labelErrors, LabelCheck.blockErrors]
      exact List.mem_append_left _ hreport
  | again hbody _ _ _ ihrest =>
      have hscope := scope_eq_of_balanced (balanced_of_runs hbody)
      refine ihrest.mono fun report hreport => ?_
      rw [hscope] at hreport
      exact hreport
  | limit _ _ _ => exact Or.inl rfl
  | arrives _ _ => trivial
  | passes _ _ _ => trivial
  | fails _ ih => exact ih.mono fun _ hreport => hreport

/-- A failure of a program that does not come from its values is a report of the check. -/
theorem mem_errors_of_runs {program : Program} {machine after : Machine} {report : Diagnostic}
    (hloops : machine.loops = []) (hrun : Runs (.block program.body) machine (.error report after))
    (hkind : report.kind.isDynamic = false) : report ∈ LabelCheck.errors program := by
  have hscope : machine.scope = [] := by rw [Machine.scope, hloops, List.map_nil]
  rcases covered_of_runs hrun with hdynamic | hmem
  · rw [hkind] at hdynamic
    cases hdynamic
  · rw [Task.labelErrors, hscope] at hmem
    exact hmem

theorem finish_eq_error {outcome : Outcome} {report : Diagnostic}
    (h : (Interpreter.finish outcome).1 = .error report) : ∃ after, outcome = .error report after := by
  cases outcome with
  | ok flow after => cases h
  | error other after =>
      obtain rfl := Except.error.inj h
      exact ⟨after, rfl⟩

/-- **The check covers every run.** A program that is run without running loops around it and fails
at a BREAK fails with a report of the check, so that a program without reports never fails at one. -/
theorem label_failures_are_reported (program : Program) :
    (∀ fuel machine report after, machine.loops = [] →
      block fuel program.body machine = some (.error report after) →
      report.kind = .breakOutsideLoop ∨ report.kind = .undefinedLabel →
      LabelCheck.errors program ≠ [] ∧ report ∈ LabelCheck.errors program) ∧
    (LabelCheck.errors program = [] →
      ∀ fuel (interpreter after : Interpreter) report, interpreter.machine.loops = [] →
        interpreter.execute fuel program = some (.error report, after) →
        report.kind ≠ .breakOutsideLoop ∧ report.kind ≠ .undefinedLabel) := by
  refine ⟨?_, ?_⟩
  · intro fuel machine report after hloops hrun hkind
    have hstatic : report.kind.isDynamic = false := by
      rcases hkind with hkind | hkind <;> rw [hkind] <;> rfl
    have hmem := mem_errors_of_runs hloops (runs_of_block hrun) hstatic
    exact ⟨List.ne_nil_of_mem hmem, hmem⟩
  · intro haccepted fuel interpreter after report hloops hrun
    obtain ⟨outcome, houtcome, hresult, -⟩ := Interpreter.execute_iff.mp ⟨fuel, hrun⟩
    obtain ⟨final, rfl⟩ := finish_eq_error hresult
    have hstart : (interpreter.machine.record (.executing program.body.length)).loops = [] := hloops
    have hdynamic : report.kind.isDynamic ≠ false := by
      intro hstatic
      have hmem := mem_errors_of_runs hstart houtcome hstatic
      rw [haccepted] at hmem
      exact List.not_mem_nil hmem
    constructor
    · intro hkind
      exact hdynamic (by rw [hkind]; rfl)
    · intro hkind
      exact hdynamic (by rw [hkind]; rfl)

/-- A program whose BREAK misspells the label of the loop around it, below an anonymous loop. -/
def misspelling : Program :=
  ⟨[.loop (some "outer") [.loop none [.leave (some "outre") ⟨2, 9, none⟩] ⟨2, 1, none⟩] ⟨1, 1, none⟩]⟩

/-- The run fails at the BREAK, and its report, which suggests the right label, is the one report of
the check. -/
theorem label_failures_are_reported_misspelling :
    ∃ after, block 9 misspelling.body {} = some (.error
        { kind := .undefinedLabel, message := "No enclosing loop is labeled 'outre'",
          location := ⟨2, 9, none⟩, suggestion := some "outer" } after) ∧
      LabelCheck.errors misspelling ≠ [] ∧
      { kind := .undefinedLabel, message := "No enclosing loop is labeled 'outre'",
        location := ⟨2, 9, none⟩, suggestion := some "outer" } ∈ LabelCheck.errors misspelling := by
  have hrun : ∃ after, block 9 misspelling.body {} = some (.error
      { kind := .undefinedLabel, message := "No enclosing loop is labeled 'outre'",
        location := ⟨2, 9, none⟩, suggestion := some "outer" } after) := ⟨_, by rfl⟩
  obtain ⟨after, hrun⟩ := hrun
  exact ⟨after, hrun, (label_failures_are_reported misspelling).1 9 {} _ after rfl hrun (Or.inr rfl)⟩

end LoopScript.Exec
