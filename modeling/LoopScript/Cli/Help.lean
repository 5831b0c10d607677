import LoopScript.Cli.Arguments

/-! The texts that the command line shows about itself. -/

namespace LoopScript.Cli

/-- The name and number of the program. -/
def versionText : String := "dcl 0.3.0\n"

def Command.about : Command → String
  | run => "Run a DCL program, reading numbers from stdin"
  | check => "Parse a program and validate its BREAK targets without running it"
  | ast => "Print the parsed syntax tree as JSON"
  | tokens => "Print the token stream, one token per line"
  | repl => "Launch interactive DCL REPL"

def helpAbout : String := "Print this message or the help of the given subcommand(s)"

/-- The options of every command. -/
def optionLines : List String :=
  ["Options:",
   "      --config <CONFIG>  TOML configuration file (defaults to ./dcl.toml when present)",
   "  -h, --help             Print help"]

/-- A text filled up with blanks to a width. -/
def padTo (width : Nat) (text : String) : String := text.pushn ' ' (width - text.length)

/-- A command and what it does, as a line of the overview. -/
def overviewLine (name about : String) : String := "  " ++ padTo 8 name ++ about

def argumentLines : Command → List String
  | .run => ["Arguments:", "  <FILE>  Path to the .dcl file", ""]
  | .repl => []
  | _ => ["Arguments:", "  <FILE>  ", ""]

/-- The form of a command's arguments. -/
def Command.usage (command : Command) : String :=
  if command.takesFile then s!"Usage: dcl {command.name} [OPTIONS] <FILE>"
  else s!"Usage: dcl {command.name} [OPTIONS]"

def helpLines : Topic → List String
  | .program =>
      ["DCL: labeled loops, multi-level BREAK and numeric READ/PRINT", "",
       "Usage: dcl [OPTIONS] <COMMAND>", "", "Commands:"] ++
        (Command.all.map fun command => overviewLine command.name command.about) ++
        [overviewLine "help" helpAbout, ""] ++ optionLines ++
        ["  -V, --version          Print version"]
  | .command command =>
      [command.about, "", command.usage, ""] ++ argumentLines command ++ optionLines
  | .help =>
      [helpAbout, "", "Usage: dcl help [COMMAND]...", "", "Arguments:",
       "  [COMMAND]...  Print help for the subcommand(s)"]

def helpText (topic : Topic) : String := String.join ((helpLines topic).map (· ++ "\n"))

end LoopScript.Cli
