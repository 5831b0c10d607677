import LoopScript.Proofs.LoopStack

/-! Lexically scoped programs, and how they run.

In a scoped program a BREAK is a number: how many loops lie between it and the loop that it leaves.
The numbers are found from the text alone (`resolveProgram?`). To run such a program no loop is
remembered: a statement ends normally or on its way out of so many further loops, and each loop on
the way counts down by one. Names of loops occur in messages only. -/

namespace LoopScript.Scoped

open Diagnostic (Cause)

/-- Statements whose BREAKs are resolved. -/
inductive Stmt where
  | loop (label : Option String) (body : List Stmt) (location : Location)
  | leave (levels : Nat)
  | read (names : List String) (location : Location)
  | print (names : List String) (location : Location)
  | cond (condition : Expr) (thenBranch : List Stmt) (elseBranch : Option (List Stmt))
  | assign (name : String) (value : Expr)

mutual

/-- A statement with its BREAKs resolved, if each of them has a loop to leave. -/
def resolveStmt? (scope : LabelCheck.Scope) : LoopScript.Stmt → Option Stmt
  | .loop label body location => do
      let body ← resolveBlock? (label :: scope) body
      return .loop label body location
  | .leave target _ => (scope.levels? target).map .leave
  | .read names location => some (.read names location)
  | .print names location => some (.print names location)
  | .cond condition thenBranch elseBranch => do
      let thenBranch ← resolveBlock? scope thenBranch
      let elseBranch ← resolveBranch? scope elseBranch
      return .cond condition thenBranch elseBranch
  | .assign name value _ => some (.assign name value)

def resolveBlock? (scope : LabelCheck.Scope) : List LoopScript.Stmt → Option (List Stmt)
  | [] => some []
  | first :: rest => do
      let first ← resolveStmt? scope first
      let rest ← resolveBlock? scope rest
      return first :: rest

def resolveBranch? (scope : LabelCheck.Scope) :
    Option (List LoopScript.Stmt) → Option (Option (List Stmt))
  | none => some none
  | some branch => do
      let branch ← resolveBlock? scope branch
      return some branch

end

def resolveProgram? (program : Program) : Option (List Stmt) := resolveBlock? [] program.body

/-- What a scoped program reads and changes: no loops, but the number of anonymous ones that have
been entered, since messages show it. -/
structure Store where
  anonymousEntries : Nat
  symbols : SymbolTable
  input : NumberInput
  output : Output
  iterationLimit : Option Nat

namespace Store

/-- What messages call a loop that is entered. -/
def loopText (store : Store) : Option String → String
  | some name => name
  | none => s!"<anonymous #{store.anonymousEntries + 1}>"

/-- The store after a loop is entered. -/
def enter (store : Store) : Option String → Store
  | some _ => store
  | none => { store with anonymousEntries := store.anonymousEntries + 1 }

end Store

/-- How a statement ends: normally, or on its way out of the loop around it and so many more. -/
inductive Signal where
  | completed
  | leaving (levels : Nat)
deriving DecidableEq

/-- How a run ends: with a signal or a report, and a store in either case. -/
abbrev Ending := EStateM.Result Diagnostic Store Signal

def readNames (location : Location) : List String → Store → Ending
  | [], store => .ok .completed store
  | name :: rest, store =>
      match store.input.next with
      | (.ok value, input) =>
          readNames location rest
            { store with input := input, symbols := store.symbols.set name value }
      | (.error cause, input) => .error (cause.reportAt location) { store with input := input }

def printNames (location : Location) : List String → Store → Ending
  | [], store => .ok .completed store
  | name :: rest, store =>
      match store.symbols.lookup name location with
      | .error report => .error report store
      | .ok value =>
          match store.output.writeLine (Number.plain value) with
          | .error reason => .error ((Cause.unwritable reason).reportAt location) store
          | .ok output => printNames location rest { store with output := output }

def assign (name : String) (value : Expr) (store : Store) : Ending :=
  match value.eval store.symbols with
  | .ok number => .ok .completed { store with symbols := store.symbols.set name number }
  | .error report => .error report store

/-- What is run: a statement, a list of statements, or the body of a loop with this text in
messages that has been repeated so many times. -/
inductive Task where
  | stmt (stmt : Stmt)
  | block (stmts : List Stmt)
  | repeating (text : String) (location : Location) (body : List Stmt) (iterations : Nat)

/-- How a run ends. -/
inductive Runs : Task → Store → Ending → Prop
  | loop {label body location store ending} :
      Runs (.repeating (store.loopText label) location body 0) (store.enter label) ending →
      Runs (.stmt (.loop label body location)) store ending
  | leave {levels store} : Runs (.stmt (.leave levels)) store (.ok (.leaving levels) store)
  | read {names location store} :
      Runs (.stmt (.read names location)) store (readNames location names store)
  | print {names location store} :
      Runs (.stmt (.print names location)) store (printNames location names store)
  | assign {name value store} : Runs (.stmt (.assign name value)) store (assign name value store)
  | condFails {condition thenBranch elseBranch report} {store : Store} :
      condition.eval store.symbols = .error report →
      Runs (.stmt (.cond condition thenBranch elseBranch)) store (.error report store)
  | condThen {condition thenBranch elseBranch value ending} {store : Store} :
      condition.eval store.symbols = .ok value → (value != 0.0) = true →
      Runs (.block thenBranch) store ending →
      Runs (.stmt (.cond condition thenBranch elseBranch)) store ending
  | condElse {condition thenBranch branch value ending} {store : Store} :
      condition.eval store.symbols = .ok value → (value != 0.0) = false →
      Runs (.block branch) store ending →
      Runs (.stmt (.cond condition thenBranch (some branch))) store ending
  | condSkip {condition thenBranch value} {store : Store} :
      condition.eval store.symbols = .ok value → (value != 0.0) = false →
      Runs (.stmt (.cond condition thenBranch none)) store (.ok .completed store)
  | nil {store} : Runs (.block []) store (.ok .completed store)
  | next {first rest store middle ending} :
      Runs (.stmt first) store (.ok .completed middle) → Runs (.block rest) middle ending →
      Runs (.block (first :: rest)) store ending
  | stopLeaving {first rest store levels after} :
      Runs (.stmt first) store (.ok (.leaving levels) after) →
      Runs (.block (first :: rest)) store (.ok (.leaving levels) after)
  | stopFailing {first rest store report after} :
      Runs (.stmt first) store (.error report after) →
      Runs (.block (first :: rest)) store (.error report after)
  | again {text location body iterations store ending} {middle : Store} :
      Runs (.block body) store (.ok .completed middle) →
      (∀ limit, middle.iterationLimit = some limit → iterations + 1 ≤ limit) →
      Runs (.repeating text location body (iterations + 1)) middle ending →
      Runs (.repeating text location body iterations) store ending
  | limit {text location body iterations store limit} {after : Store} :
      Runs (.block body) store (.ok .completed after) →
      after.iterationLimit = some limit → limit < iterations + 1 →
      Runs (.repeating text location body iterations) store
        (.error ((Cause.iterationLimit text limit).reportAt location) after)
  | arrives {text location body iterations store after} :
      Runs (.block body) store (.ok (.leaving 0) after) →
      Runs (.repeating text location body iterations) store (.ok .completed after)
  | passes {text location body iterations store levels after} :
      Runs (.block body) store (.ok (.leaving (levels + 1)) after) →
      Runs (.repeating text location body iterations) store (.ok (.leaving levels) after)
  | fails {text location body iterations store report after} :
      Runs (.block body) store (.error report after) →
      Runs (.repeating text location body iterations) store (.error report after)

/-- How a whole program ends: its statements end normally, or fail. -/
inductive ProgramRuns (stmts : List Stmt) (store : Store) : Except Diagnostic Unit → Store → Prop
  | completes {after} : Runs (.block stmts) store (.ok .completed after) →
      ProgramRuns stmts store (.ok ()) after
  | fails {report after} : Runs (.block stmts) store (.error report after) →
      ProgramRuns stmts store (.error report) after

end LoopScript.Scoped
