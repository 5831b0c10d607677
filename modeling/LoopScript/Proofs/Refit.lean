import LoopScript.Proofs.LoopStack

/-! Machines fitted with another log and another iteration limit. The statements that have no loop in
them take no notice of either, and entering, leaving and closing a loop only record events: each of
them does the same before a machine is refitted as after it. What a run makes of the limit is said
elsewhere. -/

namespace LoopScript

/-- A change of logs that comes to the same before an event is recorded as after it. -/
def Log.Steady (change : Log → Log) : Prop :=
  ∀ log event, change (Log.record log event) = (change log).record event

theorem Log.steady_id : Log.Steady id := fun _ _ => rfl

/-- A machine with its log and its iteration limit changed. -/
def Machine.refit (log : Log → Log) (limit : Option Nat → Option Nat) (machine : Machine) : Machine :=
  { machine with log := log machine.log, iterationLimit := limit machine.iterationLimit }

namespace Exec

def refitOutcome (log : Log → Log) (limit : Option Nat → Option Nat) : Outcome → Outcome
  | .ok flow after => .ok flow (after.refit log limit)
  | .error report after => .error report (after.refit log limit)

variable (log : Log → Log) (limit : Option Nat → Option Nat)

/-! ### Statements without statements inside -/

theorem completing_readNames_refit (location : Location) (names : List String) (machine : Machine) :
    completing (readNames location names) (machine.refit log limit) =
      refitOutcome log limit (completing (readNames location names) machine) := by
  induction names generalizing machine with
  | nil => rfl
  | cons name rest ih =>
      have hinput : (machine.refit log limit).input = machine.input := rfl
      rw [completing_readNames_cons, completing_readNames_cons, hinput]
      cases hnext : machine.input.next with
      | mk result input =>
          cases result with
          | error cause => rfl
          | ok value => exact ih { machine with input := input, symbols := machine.symbols.set name value }

theorem completing_printNames_refit (location : Location) (names : List String) (machine : Machine) :
    completing (printNames location names) (machine.refit log limit) =
      refitOutcome log limit (completing (printNames location names) machine) := by
  induction names generalizing machine with
  | nil => rfl
  | cons name rest ih =>
      have hsymbols : (machine.refit log limit).symbols = machine.symbols := rfl
      have houtput : (machine.refit log limit).output = machine.output := rfl
      rw [completing_printNames_cons, completing_printNames_cons, hsymbols, houtput]
      cases hlookup : machine.symbols.lookup name location with
      | error report => rfl
      | ok value =>
          dsimp only
          cases hwrite : machine.output.writeLine (Number.plain value) with
          | error reason => rfl
          | ok output => exact ih { machine with output := output }

theorem completing_assign_refit (name : String) (value : Expr) (machine : Machine) :
    completing (assign name value) (machine.refit log limit) =
      refitOutcome log limit (completing (assign name value) machine) := by
  have hsymbols : (machine.refit log limit).symbols = machine.symbols := rfl
  simp only [completing, assign, hsymbols]
  cases value.eval machine.symbols <;> rfl

/-! ### Loops, for logs that are changed alike before and after an event -/

variable {log}

theorem record_refit (hlog : Log.Steady log) (machine : Machine) (event : Event) :
    (machine.refit log limit).record event = (machine.record event).refit log limit := by
  show { machine.refit log limit with log := (log machine.log).record event } = _
  rw [← hlog]
  rfl

theorem leave_refit (hlog : Log.Steady log) (target : Option String) (location : Location)
    (machine : Machine) :
    leave target location (machine.refit log limit) =
      refitOutcome log limit (leave target location machine) := by
  have hleave : ∀ outer, (machine.refit log limit).leaveTo outer =
      (machine.leaveTo outer).refit log limit := by
    intro outer
    exact congrArg (fun after : Machine => { after with loops := outer })
      (record_refit limit hlog machine _)
  have hloops : (machine.refit log limit).loops = machine.loops := rfl
  simp only [leave, Machine.unwind, hloops]
  cases hstack : machine.loops with
  | nil => rfl
  | cons innermost outer =>
      cases target with
      | none => exact congrArg _ (hleave outer)
      | some name =>
          dsimp only
          cases (innermost :: outer).dropWhile (· ≠ .named name) with
          | nil => rfl
          | cons label outer => exact congrArg _ (hleave outer)

variable (log) in
theorem entryLabel_refit (label : Option String) (machine : Machine) :
    entryLabel label (machine.refit log limit) = entryLabel label machine := by
  cases label <;> rfl

theorem inside_refit (hlog : Log.Steady log) (label : Option String) (machine : Machine) :
    inside label (machine.refit log limit) = (inside label machine).refit log limit := by
  have hpush := record_refit limit hlog ((machine.makeLabel label).2.pushLoop (entryLabel label machine))
  cases label with
  | none => exact hpush _
  | some name => exact hpush _

theorem closeLoop_refit (hlog : Log.Steady log) (label : LoopLabel) (depth : Nat)
    (outcome : Outcome) :
    closeLoop label depth (refitOutcome log limit outcome) =
      refitOutcome log limit (closeLoop label depth outcome) := by
  cases outcome with
  | ok flow after => exact congrArg _ (record_refit limit hlog after _)
  | error report after => rfl

end Exec
end LoopScript
