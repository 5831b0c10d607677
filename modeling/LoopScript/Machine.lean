import LoopScript.Log
import LoopScript.NumberInput
import LoopScript.Number.Plain
import LoopScript.Output
import LoopScript.SymbolTable

/-! Machines: everything that a running program reads and changes.

A machine knows which loops are running, innermost first, the bindings of names, the input and the
output. Anonymous loops are told apart by a number that is new for each time one is entered. -/

namespace LoopScript

open Diagnostic (Cause)

/-- Which loop is meant: by its name, or by the number of its entry. -/
inductive LoopLabel where
  | named (name : String)
  | anonymous (entry : Nat)
deriving DecidableEq

namespace LoopLabel

def name? : LoopLabel → Option String
  | named name => some name
  | anonymous _ => none

def text : LoopLabel → String
  | named name => name
  | anonymous entry => s!"<anonymous #{entry}>"

end LoopLabel

/-- The state of a running program. -/
structure Machine where
  loops : List LoopLabel := []
  anonymousEntries : Nat := 0
  symbols : SymbolTable := {}
  input : NumberInput := {}
  output : Output := {}
  iterationLimit : Option Nat := none
  log : Log := {}

/-- Steps of a machine: they may fail, and leave a machine in either case. -/
abbrev Step := EStateM Diagnostic Machine

namespace Machine

def record (machine : Machine) (event : Event) : Machine :=
  { machine with log := machine.log.record event }

/-- The label of one entry into a loop. -/
def makeLabel (label : Option String) (machine : Machine) : LoopLabel × Machine :=
  match label with
  | some name => (.named name, machine)
  | none =>
      let entry := machine.anonymousEntries + 1
      (.anonymous entry, { machine with anonymousEntries := entry })

def pushLoop (machine : Machine) (label : LoopLabel) : Machine :=
  { machine with loops := label :: machine.loops }

def depth (machine : Machine) : Nat := machine.loops.length

/-- Keeps the outermost loops, up to a depth. -/
def truncateLoops (machine : Machine) (depth : Nat) : Machine :=
  { machine with loops := machine.loops.drop (machine.loops.length - depth) }

/-- The names of the running loops, outermost first. -/
def activeNames (machine : Machine) : List String :=
  (machine.loops.filterMap LoopLabel.name?).reverse

/-- The machine after a BREAK, when only these outer loops go on. -/
def leaveTo (machine : Machine) (outer : List LoopLabel) : Machine :=
  { machine.record (.unwinding (machine.loops.length - outer.length)) with loops := outer }

/-- Leaves the loops up to the one that a BREAK ends, and says which that is. Without a target it
is the innermost loop; otherwise the innermost one of that name. A BREAK that fails leaves no
loop. -/
def unwind (target : Option String) (location : Location) : Step LoopLabel := fun machine =>
  match machine.loops, target with
  | [], _ => .error (Cause.breakOutsideLoop.reportAt location) machine
  | innermost :: outer, none => .ok innermost (machine.leaveTo outer)
  | _ :: _, some name =>
      match machine.loops.dropWhile (· ≠ .named name) with
      | label :: outer => .ok label (machine.leaveTo outer)
      | [] => .error ((Cause.undefinedLabel name machine.activeNames).reportAt location) machine

def readNumber (location : Location) : Step Float := fun machine =>
  match machine.input.next with
  | (.ok value, input) => .ok value { machine with input := input }
  | (.error cause, input) => .error (cause.reportAt location) { machine with input := input }

def assign (machine : Machine) (name : String) (value : Float) : Machine :=
  { machine with symbols := machine.symbols.set name value }

/-- Prints a number on a line of its own. -/
def printNumber (value : Float) (location : Location) : Step Unit := fun machine =>
  match machine.output.writeLine (Number.plain value) with
  | .ok output => .ok () { machine with output := output }
  | .error reason => .error ((Cause.unwritable reason).reportAt location) machine

end Machine
end LoopScript
