import LoopScript.Interpreter
import LoopScript.Nesting

/-! Sessions: programs typed in line by line.

Lines are gathered until they close everything they open; then they are run, and their bindings
stay. A line that starts with a colon, while nothing is gathered, is a command. Programs read their
numbers from the lines that follow. -/

namespace LoopScript

/-- An interpreter, the settings for a fresh one, the lines gathered so far, and the reports,
last one first. -/
structure Session where
  interpreter : Interpreter
  settings : RunSettings
  buffer : String := ""
  reports : List Diagnostic := []

namespace Session

/-- What comes after a line. -/
inductive Reply where
  | proceed (session : Session)
  | quit (session : Session)

/-- How a session ends: at the end of its input or by command, or at a line that is no text. -/
inductive Ending where
  | closed (session : Session)
  | unreadable (session : Session)

/-- Shows lines, as far as the output takes them. -/
def say (session : Session) (lines : List String) : Session :=
  let write := fun (output : Output) line => (output.writeLine line).toOption.getD output
  let machine := session.interpreter.machine
  let machine := { machine with output := lines.foldl write machine.output }
  { session with interpreter := session.interpreter.withMachine machine }

/-- What a session shows first. -/
def banner : List String :=
  ["DCL REPL v0.3.0",
   "  Type :help for commands or :quit to exit. Statements end with ';'.",
   ""]

/-- What a session shows last. -/
def farewell : List String := ["Goodbye!"]

/-- The list of the commands, and an example. -/
def guide : List String :=
  ["",
   "REPL Commands:",
   "  :help  :h  Display this help message",
   "  :quit  :q  Exit the REPL",
   "  :vars  :v  Show bound identifiers",
   "  :reset :r  Clear all identifiers",
   "",
   "Example:",
   "  dcl> n = 3;",
   "  dcl> LOOP count:",
   "  ...>   PRINT n; n = n - 1;",
   "  ...>   IF n == 0 THEN BREAK count; END;",
   "  ...> REPEAT;",
   ""]

/-- The bindings, one on each line. -/
def bindingLines (symbols : SymbolTable) : List String :=
  if symbols.isEmpty then ["  (no identifiers bound)"]
  else symbols.entries.map fun (name, value) => "  " ++ name ++ " = " ++ Number.plain value

/-- A fresh interpreter on the same input and output. Words that were read are dropped. -/
def reset (session : Session) : Session :=
  let old := session.interpreter.machine
  let fresh := Interpreter.ofSettings session.settings
  let machine :=
    { fresh.machine with
      input := { unread := old.input.unread }, output := old.output, log := old.log }
  { session with interpreter := fresh.withMachine machine }

def command (text : String) (session : Session) : Reply :=
  if text = ":help" ∨ text = ":h" then .proceed (session.say guide)
  else if text = ":quit" ∨ text = ":q" ∨ text = ":exit" then .quit (session.say farewell)
  else if text = ":vars" ∨ text = ":v" then
    .proceed (session.say (bindingLines session.interpreter.machine.symbols))
  else if text = ":reset" ∨ text = ":r" then
    .proceed (session.reset.say ["✓ Symbol table cleared"])
  else
    .proceed
      (session.say ["Error: Unknown command: " ++ text ++ ". Type :help for available commands."])

/-- Runs the gathered lines and drops them. Lines of blanks alone are not run. -/
def evaluate (fuel : Nat) (session : Session) : Option Session :=
  let source := session.buffer
  let session := { session with buffer := "" }
  if (Text.trim source).isEmpty then some session
  else
    (session.interpreter.runSource fuel source).map fun (result, interpreter) =>
      match result with
      | .ok () => { session with interpreter := interpreter }
      | .error report =>
          { session with interpreter := interpreter, reports := report :: session.reports }

/-- Takes in one line, without its line end. -/
def feed (fuel : Nat) (line : String) (session : Session) : Option Reply :=
  let text := Text.trim line
  if session.buffer.isEmpty && ":".isPrefixOf text then some (session.command text)
  else
    let session := { session with buffer := session.buffer ++ line ++ "\n" }
    if isComplete session.buffer then (session.evaluate fuel).map .proceed
    else some (.proceed session)

def dropLineEnd (line : String) : String :=
  match line.toList.reverse with
  | '\n' :: rest => String.ofList (Text.dropReturn rest).reverse
  | _ => line

/-- Takes in the lines of the input until it ends, within a budget of lines. -/
def run (fuel : Nat) : (lines : Nat) → Session → Option Ending
  | 0, _ => none
  | lines + 1, session =>
      let machine := session.interpreter.machine
      match machine.input.unread with
      | [] => some (.closed (session.say farewell))
      | byte :: rest =>
          let (line, unread) := NumberInput.cutLine (byte :: rest)
          let machine := { machine with input := { machine.input with unread := unread } }
          let session := { session with interpreter := session.interpreter.withMachine machine }
          match NumberInput.decode? line with
          | none => some (.unreadable session)
          | some text =>
              match session.feed fuel (dropLineEnd text) with
              | none => none
              | some (.quit session) => some (.closed session)
              | some (.proceed session) => run fuel lines session

end Session
end LoopScript
