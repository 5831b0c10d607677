import LoopScript.Proofs.Refit
import LoopScript.Proofs.Relocation

/-! Runs take no notice of places and of logs. No decision of a run looks at the place of a statement or
at the events recorded so far: both are carried along. A run of statements whose places are moved, on a
machine whose log is changed, is therefore their run with the place of its report moved and the log
changed likewise. In particular a machine without a log does whatever the machine with the log does. -/

namespace LoopScript

open Stmt (relocateBlock)

variable (move : Location → Location)

/-! ### Statements without statements inside -/

theorem SymbolTable.lookup_relocate (symbols : SymbolTable) (name : String) (location : Location) :
    symbols.lookup name (move location) =
      (symbols.lookup name location).mapError (Diagnostic.relocate move) := by
  rw [lookup, lookup]
  cases symbols.get? name <;> rfl

theorem Expr.eval_relocate (symbols : SymbolTable) (e : Expr) :
    (e.relocate move).eval symbols = (e.eval symbols).mapError (Diagnostic.relocate move) := by
  induction e with
  | number value => rfl
  | var name location => exact symbols.lookup_relocate move name location
  | negate operand ih =>
      rw [relocate, eval, eval, ih]
      cases operand.eval symbols <;> rfl
  | binary op left right location ihleft ihright =>
      rw [relocate, eval, eval, ihleft, ihright]
      cases left.eval symbols with
      | error report => rfl
      | ok first =>
          cases right.eval symbols with
          | error report => rfl
          | ok second =>
              simp only [Except.mapError, bind, Except.bind]
              cases op.apply? first second <;> rfl

namespace Exec

def relocateOutcome : Outcome → Outcome
  | .ok flow after => .ok flow after
  | .error report after => .error (report.relocate move) after

theorem completing_readNames_relocate (location : Location) (names : List String) (machine : Machine) :
    completing (readNames (move location) names) machine =
      relocateOutcome move (completing (readNames location names) machine) := by
  induction names generalizing machine with
  | nil => rfl
  | cons name rest ih =>
      rw [completing_readNames_cons, completing_readNames_cons]
      cases machine.input.next with
      | mk result input =>
          cases result with
          | error cause => rfl
          | ok value => exact ih _

theorem completing_printNames_relocate (location : Location) (names : List String) (machine : Machine) :
    completing (printNames (move location) names) machine =
      relocateOutcome move (completing (printNames location names) machine) := by
  induction names generalizing machine with
  | nil => rfl
  | cons name rest ih =>
      rw [completing_printNames_cons, completing_printNames_cons, SymbolTable.lookup_relocate]
      cases machine.symbols.lookup name location with
      | error report => rfl
      | ok value =>
          simp only [Except.mapError]
          cases machine.output.writeLine (Number.plain value) with
          | error reason => rfl
          | ok output => exact ih _

theorem completing_assign_relocate (name : String) (value : Expr) (machine : Machine) :
    completing (assign name (value.relocate move)) machine =
      relocateOutcome move (completing (assign name value) machine) := by
  simp only [completing, assign, Expr.eval_relocate]
  cases value.eval machine.symbols <;> rfl

theorem leave_relocate (target : Option String) (location : Location) (machine : Machine) :
    leave target (move location) machine = relocateOutcome move (leave target location machine) := by
  simp only [leave, Machine.unwind]
  cases machine.loops with
  | nil => rfl
  | cons innermost outer =>
      cases target with
      | none => rfl
      | some name =>
          dsimp only
          cases (innermost :: outer).dropWhile (· ≠ .named name) <;> rfl

/-! ### Lists and loops, for places and logs at once -/

/-- An outcome with the place of its report moved and the log of its machine changed. -/
def carryOutcome (log : Log → Log) : Outcome → Outcome
  | .ok flow after => .ok flow (after.refit log id)
  | .error report after => .error (report.relocate move) (after.refit log id)

theorem refitOutcome_relocateOutcome (log : Log → Log) (outcome : Outcome) :
    refitOutcome log id (relocateOutcome move outcome) = carryOutcome move log outcome := by
  cases outcome <;> rfl

variable {log : Log → Log}

theorem repeatBody_carry {body moved : Machine → Option Outcome}
    (hbody : ∀ machine, moved (machine.refit log id) = (body machine).map (carryOutcome move log))
    (label : LoopLabel) (location : Location) (fuel count : Nat) (machine : Machine) :
    repeatBody moved label (move location) fuel count (machine.refit log id) =
      (repeatBody body label location fuel count machine).map (carryOutcome move log) := by
  induction fuel generalizing count machine with
  | zero => rfl
  | succ fuel ih =>
      rw [repeatBody, repeatBody, hbody]
      cases body machine with
      | none => rfl
      | some ending =>
          cases ending with
          | error report after => rfl
          | ok flow after =>
              cases flow with
              | broke target =>
                  by_cases htarget : target = label
                  · simp only [Option.map_some, carryOutcome, if_pos htarget]
                  · simp only [Option.map_some, carryOutcome, if_neg htarget]
              | completed =>
                  have hlimit : (after.refit log id).iterationLimit = after.iterationLimit := rfl
                  simp only [Option.map_some, carryOutcome, hlimit]
                  cases isOverLimit after.iterationLimit (count + 1) with
                  | some limit => rfl
                  | none => exact ih (count + 1) after

theorem loop_carry (hlog : Log.Steady log) {body moved : Machine → Option Outcome}
    (hbody : ∀ machine, moved (machine.refit log id) = (body machine).map (carryOutcome move log))
    (fuel : Nat) (label : Option String) (location : Location) (machine : Machine) :
    loop fuel moved label (move location) (machine.refit log id) =
      (loop fuel body label location machine).map (carryOutcome move log) := by
  have hdepth : (machine.refit log id).depth = machine.depth := rfl
  rw [loop_eq, loop_eq, entryLabel_refit, inside_refit id hlog, repeatBody_carry move hbody, hdepth,
    Option.map_map, Option.map_map]
  refine congrArg (Option.map · _) (funext fun outcome => ?_)
  calc closeLoop (entryLabel label machine) machine.depth (carryOutcome move log outcome)
      = closeLoop (entryLabel label machine) machine.depth
          (refitOutcome log id (relocateOutcome move outcome)) := by rw [refitOutcome_relocateOutcome]
    _ = refitOutcome log id (closeLoop (entryLabel label machine) machine.depth
          (relocateOutcome move outcome)) := closeLoop_refit id hlog _ _ _
    _ = carryOutcome move log (closeLoop (entryLabel label machine) machine.depth outcome) := by
        cases outcome <;> rfl

theorem stmt_carry (hlog : Log.Steady log) {run : List Stmt → Machine → Option Outcome}
    (hrun : ∀ stmts machine, run (relocateBlock move stmts) (machine.refit log id) =
      (run stmts machine).map (carryOutcome move log))
    (fuel : Nat) (first : Stmt) (machine : Machine) :
    stmt fuel run (first.relocate move) (machine.refit log id) =
      (stmt fuel run first machine).map (carryOutcome move log) := by
  have hleaf : ∀ {step moved : Machine → Outcome},
      moved (machine.refit log id) = refitOutcome log id (moved machine) →
      moved machine = relocateOutcome move (step machine) →
      some (moved (machine.refit log id)) = (some (step machine)).map (carryOutcome move log) := by
    intro step moved hrefit hrelocate
    rw [hrefit, hrelocate, refitOutcome_relocateOutcome]
    rfl
  cases first with
  | loop label body location =>
      rw [Stmt.relocate]
      exact loop_carry move hlog (hrun body) fuel label location machine
  | leave target location =>
      rw [Stmt.relocate]
      exact hleaf (leave_refit id hlog target _ machine) (leave_relocate move target location machine)
  | read names location =>
      rw [Stmt.relocate]
      exact hleaf (completing_readNames_refit log id _ names machine)
        (completing_readNames_relocate move location names machine)
  | print names location =>
      rw [Stmt.relocate]
      exact hleaf (completing_printNames_refit log id _ names machine)
        (completing_printNames_relocate move location names machine)
  | assign name value location =>
      rw [Stmt.relocate]
      exact hleaf (completing_assign_refit log id name _ machine)
        (completing_assign_relocate move name value machine)
  | cond condition thenBranch elseBranch =>
      have hsymbols : (machine.refit log id).symbols = machine.symbols := rfl
      rw [Stmt.relocate]
      simp only [stmt, hsymbols, Expr.eval_relocate]
      cases condition.eval machine.symbols with
      | error report => rfl
      | ok value =>
          simp only [Except.mapError]
          by_cases hvalue : (value != 0.0) = true
          · simp only [if_pos hvalue]
            exact hrun thenBranch machine
          · simp only [if_neg hvalue]
            cases elseBranch with
            | none => rfl
            | some branch => exact hrun branch machine

/-- A run of statements with moved places on a machine with another log is their run, the place of its
report moved and the log changed. -/
theorem block_carry (hlog : Log.Steady log) (fuel : Nat) (stmts : List Stmt) (machine : Machine) :
    block fuel (relocateBlock move stmts) (machine.refit log id) =
      (block fuel stmts machine).map (carryOutcome move log) := by
  induction fuel generalizing stmts machine with
  | zero => rfl
  | succ fuel ih =>
      cases stmts with
      | nil => rfl
      | cons first rest =>
          rw [relocateBlock, block, block, stmt_carry move hlog ih]
          cases stmt fuel (block fuel) first machine with
          | none => rfl
          | some ending =>
              cases ending with
              | error report after => rfl
              | ok flow middle =>
                  cases flow with
                  | completed => exact ih rest middle
                  | broke label => rfl

theorem block_relocate (fuel : Nat) (stmts : List Stmt) (machine : Machine) :
    block fuel (relocateBlock move stmts) machine =
      (block fuel stmts machine).map (relocateOutcome move) := by
  have houtcome : carryOutcome move id = relocateOutcome move := by
    funext outcome
    cases outcome <;> rfl
  rw [← houtcome]
  exact block_carry move Log.steady_id fuel stmts machine

theorem finish_relocate (outcome : Outcome) :
    Interpreter.finish (relocateOutcome move outcome) =
      ((Interpreter.finish outcome).1.mapError (Diagnostic.relocate move),
        (Interpreter.finish outcome).2) := by
  match outcome with
  | .error report after => rfl
  | .ok .completed after => rfl
  | .ok (.broke label) after => rfl

end Exec

/-! ### Machines without a log -/

/-- The log that keeps nothing, in place of any other. -/
def Log.silence (_ : Log) : Log := {}

theorem Log.steady_silence : Log.Steady Log.silence := fun _ _ => rfl

def Machine.quiet (machine : Machine) : Machine := { machine with log := {} }

namespace Exec

def quietOutcome : Outcome → Outcome
  | .ok flow after => .ok flow after.quiet
  | .error report after => .error report after.quiet

theorem quiet_foldl_record (events : List Event) (machine : Machine) :
    (events.foldl Machine.record machine).quiet = machine.quiet := by
  induction events generalizing machine with
  | nil => rfl
  | cons event events ih => exact ih (machine.record event)

/-- A run without a log is the run with one, its log left out. -/
theorem block_quiet (fuel : Nat) (stmts : List Stmt) (machine : Machine) :
    block fuel stmts machine.quiet = (block fuel stmts machine).map quietOutcome := by
  have houtcome : carryOutcome id Log.silence = quietOutcome := by
    funext outcome
    cases outcome <;> rfl
  have hcarry := block_carry id Log.steady_silence fuel stmts machine
  rw [Stmt.relocateBlock_id, houtcome] at hcarry
  exact hcarry

end Exec
end LoopScript
