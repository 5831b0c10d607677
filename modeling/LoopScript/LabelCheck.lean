import LoopScript.Diagnostic
import LoopScript.Log
import LoopScript.Program

/-! Label checking: every BREAK that would fail, found without running the program.

A BREAK fails when no loop is around it, or when it names none of the loops around it. All such
BREAKs are reported, in the order of the text. A loop inside another of the same name is no error,
but an event. -/

namespace LoopScript.LabelCheck

open Diagnostic (Cause)

/-- The labels of the loops around a statement, innermost first; anonymous loops have none. -/
abbrev Scope := List (Option String)

/-- The names in a scope, outermost first. -/
def Scope.names (scope : Scope) : List String := (scope.filterMap id).reverse

/-- Why a BREAK fails in a scope, if it does. -/
def breakCause? (scope : Scope) (target : Option String) : Option Cause :=
  match scope, target with
  | [], _ => some .breakOutsideLoop
  | _ :: _, none => none
  | _ :: _, some name =>
      if scope.contains (some name) then none else some (.undefinedLabel name scope.names)

/-- The event for a loop in a scope that already has its name. -/
def shadowing? (scope : Scope) (label : Option String) (location : Location) : Option Event :=
  match label with
  | none => none
  | some name => if scope.contains (some name) then some (.shadowing name location) else none

mutual

def stmtErrors (scope : Scope) : Stmt → List Diagnostic
  | .loop label body _ => blockErrors (label :: scope) body
  | .leave target location => ((breakCause? scope target).map (·.reportAt location)).toList
  | .cond _ thenBranch elseBranch =>
      blockErrors scope thenBranch ++ branchErrors scope elseBranch
  | .read _ _ => []
  | .print _ _ => []
  | .assign _ _ _ => []

def blockErrors (scope : Scope) : List Stmt → List Diagnostic
  | [] => []
  | stmt :: rest => stmtErrors scope stmt ++ blockErrors scope rest

def branchErrors (scope : Scope) : Option (List Stmt) → List Diagnostic
  | none => []
  | some stmts => blockErrors scope stmts

end

mutual

def stmtEvents (scope : Scope) : Stmt → List Event
  | .loop label body location =>
      (shadowing? scope label location).toList ++ blockEvents (label :: scope) body
  | .cond _ thenBranch elseBranch =>
      blockEvents scope thenBranch ++ branchEvents scope elseBranch
  | .leave _ _ => []
  | .read _ _ => []
  | .print _ _ => []
  | .assign _ _ _ => []

def blockEvents (scope : Scope) : List Stmt → List Event
  | [] => []
  | stmt :: rest => stmtEvents scope stmt ++ blockEvents scope rest

def branchEvents (scope : Scope) : Option (List Stmt) → List Event
  | none => []
  | some stmts => blockEvents scope stmts

end

/-- The reports on the BREAKs of a program. -/
def errors (program : Program) : List Diagnostic := blockErrors [] program.body

def events (program : Program) : List Event := blockEvents [] program.body

end LoopScript.LabelCheck
