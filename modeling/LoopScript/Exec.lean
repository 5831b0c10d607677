import LoopScript.Eval
import LoopScript.Machine

/-! Running statements.

A statement ends normally or with a BREAK that is on its way to the loop it ends. A loop repeats
its body until a BREAK arrives; the BREAK stops there if it is meant for this loop.

Programs may run for ever, so a run has a budget. It is used up by one for each statement and each
repetition, and a run whose budget is too small has no outcome. -/

namespace LoopScript

open Diagnostic (Cause)

/-- How statements end. -/
inductive Flow where
  | completed
  | broke (label : LoopLabel)
deriving DecidableEq

/-- How a run ends: with a flow or a report, and a machine in either case. -/
abbrev Outcome := EStateM.Result Diagnostic Machine Flow

namespace Exec

def readNames (location : Location) : List String → Step Unit
  | [] => pure ()
  | name :: rest => do
      let value ← Machine.readNumber location
      modify (·.assign name value)
      readNames location rest

def printNames (location : Location) : List String → Step Unit
  | [] => pure ()
  | name :: rest => do
      match (← get).symbols.lookup name location with
      | .ok value => Machine.printNumber value location
      | .error report => throw report
      printNames location rest

/-- The outcome of a step that has no flow of its own. -/
def completing (step : Step Unit) (machine : Machine) : Outcome :=
  match step machine with
  | .ok () after => .ok .completed after
  | .error report after => .error report after

/-- Evaluates an expression and binds its value. -/
def assign (name : String) (value : Expr) : Step Unit := fun machine =>
  match value.eval machine.symbols with
  | .ok number => .ok () (machine.assign name number)
  | .error report => .error report machine

def leave (target : Option String) (location : Location) (machine : Machine) : Outcome :=
  match Machine.unwind target location machine with
  | .ok label after => .ok (.broke label) after
  | .error report after => .error report after

def isOverLimit (limit : Option Nat) (iterations : Nat) : Option Nat :=
  match limit with
  | some most => if most < iterations then some most else none
  | none => none

/-- Repeats the body of a loop. The limit is looked at after each repetition that ends normally. -/
def repeatBody (body : Machine → Option Outcome) (label : LoopLabel) (location : Location) :
    (fuel : Nat) → (iterations : Nat) → Machine → Option Outcome
  | 0, _, _ => none
  | fuel + 1, iterations, machine =>
      match body machine with
      | none => none
      | some (.error report after) => some (.error report after)
      | some (.ok (.broke target) after) =>
          if target = label then some (.ok .completed after)
          else some (.ok (.broke target) after)
      | some (.ok .completed after) =>
          match isOverLimit after.iterationLimit (iterations + 1) with
          | some limit =>
              some (.error ((Cause.iterationLimit label.text limit).reportAt location) after)
          | none => repeatBody body label location fuel (iterations + 1) after

/-- The machine after a loop. A loop that fails takes back the loops it had entered. -/
def closeLoop (label : LoopLabel) (depth : Nat) : Outcome → Outcome
  | .ok flow after => .ok flow (after.record (.leaving label.text))
  | .error report after => .error report (after.truncateLoops depth)

/-- Enters a loop, repeats its body, and leaves it. -/
def loop (fuel : Nat) (body : Machine → Option Outcome) (label : Option String)
    (location : Location) (machine : Machine) : Option Outcome :=
  let (entered, machine) := machine.makeLabel label
  let depth := machine.depth
  let inside := (machine.pushLoop entered).record (.entering entered.text depth)
  (repeatBody body entered location fuel 0 inside).map (closeLoop entered depth)

/-- Runs one statement, given how to run the lists of statements inside it. -/
def stmt (fuel : Nat) (run : List Stmt → Machine → Option Outcome) :
    Stmt → Machine → Option Outcome
  | .loop label body location, machine => loop fuel (run body) label location machine
  | .leave target location, machine => some (leave target location machine)
  | .read names location, machine => some (completing (readNames location names) machine)
  | .print names location, machine => some (completing (printNames location names) machine)
  | .cond condition thenBranch elseBranch, machine =>
      match condition.eval machine.symbols with
      | .error report => some (.error report machine)
      | .ok value =>
          if value != 0.0 then run thenBranch machine
          else
            match elseBranch with
            | some branch => run branch machine
            | none => some (.ok .completed machine)
  | .assign name value _, machine => some (completing (assign name value) machine)

/-- Runs statements in order, up to the first that breaks or fails. -/
def block : (fuel : Nat) → List Stmt → Machine → Option Outcome
  | 0, _, _ => none
  | _ + 1, [], machine => some (.ok .completed machine)
  | fuel + 1, first :: rest, machine =>
      match stmt fuel (block fuel) first machine with
      | some (.ok .completed after) => block fuel rest after
      | other => other

end Exec
end LoopScript
