/-! The arguments of the command line.

Arguments are looked at one after the other. Before the command stand options for all commands;
after it the same options and the command's own arguments. A request for help or for the version is
answered as soon as it is met, so that later faults do not count. -/

namespace LoopScript.Cli

inductive Command where
  | run | check | ast | tokens | repl
deriving DecidableEq

namespace Command

def name : Command → String
  | run => "run"
  | check => "check"
  | ast => "ast"
  | tokens => "tokens"
  | repl => "repl"

/-- All commands, in the order of the help. -/
def all : List Command := [run, check, ast, tokens, repl]

def ofName? (name : String) : Option Command := all.find? (·.name == name)

def takesFile : Command → Bool
  | repl => false
  | _ => true

end Command

/-- What help is asked about. -/
inductive Topic where
  | program
  | command (command : Command)
  | help
deriving DecidableEq

/-- What the arguments ask for. -/
inductive Request where
  /-- Carry out a command on a file, with settings from another file. -/
  | perform (command : Command) (file : String) (settings : Option String)
  | showHelp (topic : Topic)
  | showVersion
  | misuse
deriving DecidableEq

/-- An argument by its form. -/
inductive Form where
  /-- Two dashes alone: no option follows. -/
  | separator
  /-- The option for settings, without its value or with an attached one. -/
  | settings (attached : Option String)
  | help
  | version
  | unknownOption
  | word (text : String)
deriving DecidableEq

/-- The option for settings, as its argument starts when the value is attached. -/
def attachedSettings : List Char := "--config=".toList

/-- The form of an argument. Of a group of letters after one dash the first one decides. -/
def Form.of (argument : String) : Form :=
  let text := argument.toList
  if argument = "--" then .separator
  else if argument = "--help" then .help
  else if argument = "--version" then .version
  else if argument = "--config" then .settings none
  else if attachedSettings.isPrefixOf text then
    .settings (some (String.ofList (text.drop attachedSettings.length)))
  else
    match text with
    | ['-'] => .word argument
    | '-' :: 'h' :: _ => .help
    | '-' :: 'V' :: _ => .version
    | '-' :: _ => .unknownOption
    | _ => .word argument

/-- The value of an option, which is the argument after it. Options are no values. -/
def valueOf? (argument : String) : Option String :=
  match Form.of argument with
  | .word text => some text
  | _ => none

/-- What was met after the command. -/
structure Collected where
  file : Option String := none
  settings : Option String := none
deriving DecidableEq

/-- Takes a file, if the command wants one and has none yet. -/
def Collected.takeFile? (command : Command) (text : String) (collected : Collected) :
    Option Collected :=
  if command.takesFile && collected.file.isNone && !text.isEmpty then
    some { collected with file := some text }
  else none

/-- Takes the file with the settings, if there is none yet. -/
def Collected.takeSettings? (text : String) (collected : Collected) : Option Collected :=
  if collected.settings.isNone && !text.isEmpty then
    some { collected with settings := some text }
  else none

/-- Takes arguments that are no options, whatever their form. -/
def takeFiles? (command : Command) (collected : Collected) (arguments : List String) :
    Option Collected :=
  arguments.foldlM (fun collected text => collected.takeFile? command text) collected

/-- The request of a command whose arguments have all been met. Its own settings win over those
before the command. -/
def Collected.finish (command : Command) (outer : Option String) (collected : Collected) : Request :=
  let settings := collected.settings <|> outer
  match collected.file with
  | some file => .perform command file settings
  | none => if command.takesFile then .misuse else .perform command "" settings

def commandRequest (command : Command) (outer : Option String) :
    Collected → List String → Request
  | collected, [] => collected.finish command outer
  | collected, argument :: rest =>
      match Form.of argument with
      | .separator =>
          match takeFiles? command collected rest with
          | some collected => collected.finish command outer
          | none => .misuse
      | .help => .showHelp (.command command)
      | .version => .misuse
      | .unknownOption => .misuse
      | .settings (some text) =>
          match collected.takeSettings? text with
          | some collected => commandRequest command outer collected rest
          | none => .misuse
      | .settings none =>
          match rest with
          | [] => .misuse
          | value :: rest =>
              match (valueOf? value).bind collected.takeSettings? with
              | some collected => commandRequest command outer collected rest
              | none => .misuse
      | .word text =>
          match collected.takeFile? command text with
          | some collected => commandRequest command outer collected rest
          | none => .misuse

/-- The request for help on the topics that are named. -/
def helpRequest : List String → Request
  | [] => .showHelp .program
  | [name] =>
      if name = "help" then .showHelp .help
      else
        match Command.ofName? name with
        | some command => .showHelp (.command command)
        | none => .misuse
  | _ => .misuse

/-- The settings that stand before the command. A value of its own argument is judged only once the
command's arguments have been met. -/
structure Outer where
  settings : Option String := none
  isFaulty : Bool := false
deriving DecidableEq

/-- Takes the file with the settings. A second one, or one without a name, is a fault. -/
def Outer.take (text : String) (outer : Outer) : Outer :=
  if outer.settings.isNone && !text.isEmpty then { outer with settings := some text }
  else { outer with isFaulty := true }

/-- A fault before the command makes every request of it a misuse, except for help. -/
def Outer.judge (outer : Outer) : Request → Request
  | .showHelp topic => .showHelp topic
  | request => if outer.isFaulty then .misuse else request

/-- The request of all arguments. An option after a fault makes the fault count at once. -/
def requestFrom : Outer → List String → Request
  | _, [] => .misuse
  | outer, argument :: rest =>
      match Form.of argument with
      | .word name =>
          if name = "help" then helpRequest rest
          else
            match Command.ofName? name with
            | some command => outer.judge (commandRequest command outer.settings {} rest)
            | none => .misuse
      | .separator => .misuse
      | .unknownOption => .misuse
      | .help => if outer.isFaulty then .misuse else .showHelp .program
      | .version => if outer.isFaulty then .misuse else .showVersion
      | .settings (some text) =>
          let outer := outer.take text
          if outer.isFaulty then .misuse else requestFrom outer rest
      | .settings none =>
          match rest with
          | [] => .misuse
          | value :: rest =>
              match valueOf? value with
              | some text => if outer.isFaulty then .misuse else requestFrom (outer.take text) rest
              | none => .misuse

def request (arguments : List String) : Request := requestFrom {} arguments

end LoopScript.Cli
