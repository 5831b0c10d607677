import LoopScript.Exec
import LoopScript.LabelCheck
import LoopScript.Parser
import LoopScript.Settings

/-! Interpreters: programs run one after the other on the same machine.

A text is parsed, its labels are checked if that is asked for, and it is run. Nothing is run of a
text that fails before. Reports carry the line they are about. -/

namespace LoopScript

/-- A machine, whether labels are checked, and the file that reports name. -/
structure Interpreter where
  machine : Machine := {}
  checkLabels : Bool := true
  sourceFile : Option String := none

namespace Interpreter

def ofSettings (settings : RunSettings) : Interpreter where
  machine := { iterationLimit := settings.maxLoopIterations }
  checkLabels := settings.checkLabels

/-- What a run leaves: a report if it failed, and the interpreter. A run whose budget is too small
leaves nothing. -/
abbrev Run := Option (Except Diagnostic Unit × Interpreter)

def withMachine (interpreter : Interpreter) (machine : Machine) : Interpreter :=
  { interpreter with machine := machine }

/-- Replaces the input; unread words of the old one are dropped. -/
def setInput (interpreter : Interpreter) (bytes : List UInt8) : Interpreter :=
  interpreter.withMachine { interpreter.machine with input := { unread := bytes } }

/-- The end of a program: no loop is running any more, and a normal end is an event. -/
def finish (outcome : Outcome) : Except Diagnostic Unit × Machine :=
  match outcome with
  | .error report machine => (.error report, machine.truncateLoops 0)
  | .ok flow machine =>
      let machine := machine.truncateLoops 0
      let machine :=
        match flow with
        | .completed => machine
        | .broke label => machine.record (.escaped label.text)
      (.ok (), machine.record (.finished machine.symbols.size))

def execute (fuel : Nat) (program : Program) (interpreter : Interpreter) : Run :=
  let machine := interpreter.machine.record (.executing program.body.length)
  (Exec.block fuel program.body machine).map fun outcome =>
    let (result, machine) := finish outcome
    (result, interpreter.withMachine machine)

/-- The first report on the labels of a program, if labels are checked, and the events. -/
def checkProgram (program : Program) (interpreter : Interpreter) :
    Option Diagnostic × Interpreter :=
  if interpreter.checkLabels then
    let machine := (LabelCheck.events program).foldl Machine.record interpreter.machine
    ((LabelCheck.errors program).head?, interpreter.withMachine machine)
  else (none, interpreter)

/-- A result whose report carries its line of the text and the file. -/
def attach (interpreter : Interpreter) (source : String) :
    Except Diagnostic Unit → Except Diagnostic Unit
  | .ok () => .ok ()
  | .error report => .error (report.attachSource interpreter.sourceFile source)

/-- Parses a text, checks its labels and runs it. -/
def runSource (fuel : Nat) (source : String) (interpreter : Interpreter) : Run :=
  match Parser.parse source interpreter.machine.log with
  | .error .outOfFuel _ => none
  | .error (.report report) state =>
      let interpreter := interpreter.withMachine { interpreter.machine with log := state.log }
      some (interpreter.attach source (.error report), interpreter)
  | .ok program state =>
      let interpreter := interpreter.withMachine { interpreter.machine with log := state.log }
      match interpreter.checkProgram program with
      | (some report, interpreter) => some (interpreter.attach source (.error report), interpreter)
      | (none, interpreter) =>
          (interpreter.execute fuel program).map fun (result, after) =>
            (after.attach source result, after)

end Interpreter
end LoopScript
