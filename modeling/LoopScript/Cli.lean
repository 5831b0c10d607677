import LoopScript.Cli.Folder
import LoopScript.Cli.Help
import LoopScript.Diagnostic.Render
import LoopScript.Program.Json
import LoopScript.Session
import LoopScript.Settings.Toml

/-! The command line: from arguments, files and input to output, reports and an exit code. -/

namespace LoopScript.Cli

/-- What the command line sees: the files, the input, and why its output is blocked, if it is. -/
structure World where
  files : Files
  input : List UInt8 := []
  blocked : Option String := none

/-- What the command line leaves: an exit code, its output and its reports. -/
structure Outcome where
  code : Nat
  output : String := ""
  reports : String := ""
deriving DecidableEq

def successCode : Nat := 0

def failureCode : Nat := 1

/-- The exit code of arguments that make no request. -/
def misuseCode : Nat := 2

/-- The exit code of a command that could not show its result. -/
def brokenOutputCode : Nat := 101

/-- The outcome of a failure that is told in one line. -/
def failure (message : String) : Outcome :=
  { code := failureCode, reports := "Error: " ++ message ++ "\n" }

/-- The outcome of a failure with these reports and a last line. -/
def reported (reports : List Diagnostic) (last : String) : Outcome :=
  { code := failureCode, reports := String.join (reports.map (·.render false)) ++ last }

def shown (world : World) (text : String) : Outcome :=
  if world.blocked.isSome then { code := brokenOutputCode }
  else { code := successCode, output := text }

def readText (world : World) (path : String) : Except FileError String :=
  match world.files path with
  | .error error => .error error
  | .ok bytes =>
      match NumberInput.decode? bytes with
      | some text => .ok text
      | none => .error (.other NumberInput.notUtf8)

/-- The file that settings are taken from when none is named. -/
def defaultSettingsFile : String := "dcl.toml"

/-- The settings in a file, or the message why there are none. -/
def readSettings (world : World) (path : String) : Except String Settings :=
  match readText world path with
  | .error error => .error ("failed to read config file " ++ path ++ ": " ++ error.message)
  | .ok text =>
      match Settings.ofToml? text with
      | some settings => .ok settings
      | none => .error ("invalid config file " ++ path ++ ": not a valid configuration")

/-- The settings of a command. A file that is named has to exist; the default one need not. -/
def loadSettings (world : World) : Option String → Except String Settings
  | some path => readSettings world path
  | none =>
      match world.files defaultSettingsFile with
      | .ok _ => readSettings world defaultSettingsFile
      | .error error => if error.isFile then readSettings world defaultSettingsFile else .ok {}

def runProgram (fuel : Nat) (world : World) (settings : Settings) (file source : String) :
    Option Outcome :=
  let fresh := Interpreter.ofSettings settings.run
  let machine :=
    { fresh.machine with
      input := { unread := world.input }, output := { blocked := world.blocked } }
  let interpreter := { fresh with machine := machine, sourceFile := some file }
  (interpreter.runSource fuel source).map fun (result, interpreter) =>
    let output := interpreter.machine.output.text
    match result with
    | .ok () => { code := successCode, output := output }
    | .error report => { reported [report] "" with output := output }

/-- Parses a program, and goes on with it. -/
def withProgram (file source : String) (next : Program → Outcome) : Option Outcome :=
  match Parser.parse source {} with
  | .ok program _ => some (next program)
  | .error (.report report) _ => some (reported [report.attachSource (some file) source] "")
  | .error .outOfFuel _ => none

def checkProgram (world : World) (file source : String) : Option Outcome :=
  withProgram file source fun program =>
    match LabelCheck.errors program with
    | [] => shown world ("✓ " ++ file ++ "\n")
    | reports =>
        reported (reports.map (·.attachSource (some file) source))
          ("Check failed: " ++ toString reports.length ++ " error(s)\n")

/-- Shows a program as JSON. -/
def showProgram (world : World) (file source : String) : Option Outcome :=
  withProgram file source fun program => shown world (program.toJson.indented ++ "\n")

/-- A token as a line: its place, its kind, and its text if it has one. -/
def tokenLine (token : Token) : String :=
  let line := token.location.text ++ "\t" ++ token.kind.describe
  match token.text with
  | some text => line ++ "\t" ++ text ++ "\n"
  | none => line ++ "\n"

def showTokens (world : World) (file source : String) : Outcome :=
  match tokenize source with
  | .ok tokens => shown world (String.join (tokens.map tokenLine))
  | .error report => reported [report.attachSource (some file) source] ""

/-- Holds a session. Without an output it cannot even start. -/
def holdSession (fuel : Nat) (world : World) (settings : Settings) : Option Outcome :=
  if world.blocked.isSome then some { code := brokenOutputCode }
  else
    let interpreter := (Interpreter.ofSettings settings.run).setInput world.input
    let session : Session := { interpreter := interpreter, settings := settings.run }
    ((session.say Session.banner).run fuel fuel).map fun ending =>
      let (code, last, session) :=
        match ending with
        | .closed session => (successCode, "", session)
        | .unreadable session =>
            (failureCode, "Error: " ++ NumberInput.notUtf8 ++ "\n", session)
      { code := code
        output := session.interpreter.machine.output.text
        reports := String.join (session.reports.reverse.map (·.render false)) ++ last }

/-- Carries out a command on the text of its file. -/
def perform (fuel : Nat) (world : World) (settings : Settings) (command : Command) (file : String) :
    Option Outcome :=
  match command with
  | .repl => holdSession fuel world settings
  | _ =>
      match readText world file with
      | .error error => some (failure ("Failed to read " ++ file ++ ": " ++ error.message))
      | .ok source =>
          match command with
          | .run => runProgram fuel world settings file source
          | .check => checkProgram world file source
          | .ast => showProgram world file source
          | _ => some (showTokens world file source)

/-- Answers a request. What is shown about the command line itself may get lost. -/
def answer (fuel : Nat) (world : World) : Request → Option Outcome
  | .misuse => some { code := misuseCode }
  | .showVersion => some { code := successCode, output := versionText }
  | .showHelp topic => some { code := successCode, output := helpText topic }
  | .perform command file path =>
      match loadSettings world path with
      | .error message => some (failure message)
      | .ok settings => perform fuel world settings command file

end LoopScript.Cli
