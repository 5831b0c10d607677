import LoopScript.Cli

/-! The program: it reads what the command line asks for, and writes what it answers. -/

namespace LoopScript.Main

open Cli

/-- A budget that no run uses up. -/
def budget : Nat := 1000000000000000000

def fileError : IO.Error → FileError
  | .noFileOrDirectory .. => .notFound
  | .inappropriateType .. => .isFolder
  | error => .other (toString error)

def readFile (path : String) : IO (Except FileError (List UInt8)) := do
  try
    let bytes ← IO.FS.readBinFile path
    return .ok bytes.toList
  catch error => return .error (fileError error)

/-- The files that a request may read. -/
def neededFiles : Request → List String
  | .perform command file settings =>
      settings.getD defaultSettingsFile :: (if command.takesFile then [file] else [])
  | _ => []

/-- Whether a request reads the input: a session does, and so does a program with a READ. -/
def readsInput (files : Files) : Request → Bool
  | .perform .repl _ _ => true
  | .perform .run file _ =>
      match readText { files := files } file with
      | .ok source => (tokenize source).toOption.any (·.any (·.kind = .readWord))
      | .error _ => false
  | _ => false

/-- Reads the input up to its end. -/
def readInput : IO (List UInt8) := do
  let bytes ← (← IO.getStdin).readBinToEnd
  return bytes.toList

def answerArguments (arguments : List String) : IO UInt32 := do
  let request := Cli.request arguments
  let contents ← (neededFiles request).mapM fun path => do return (path, ← readFile path)
  let files : Files := fun path => (contents.lookup path).getD (.error .notFound)
  let input ← if readsInput files request then readInput else pure []
  match Cli.answer budget { files := files, input := input } request with
  | none => return 1
  | some outcome =>
      IO.print outcome.output
      IO.eprint outcome.reports
      return UInt32.ofNat outcome.code

end LoopScript.Main

def main (arguments : List String) : IO UInt32 := LoopScript.Main.answerArguments arguments
