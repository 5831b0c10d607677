import LoopScript.Diagnostic.Cause
import LoopScript.Location
import LoopScript.Text.Lines

/-! Diagnostics: a failure as it is reported, with its place in the program text. -/

namespace LoopScript

/-- A failure with its place and, once the program text is known, the line it is in. -/
structure Diagnostic where
  kind : Diagnostic.Kind
  message : String
  location : Location
  sourceLine : Option String := none
  suggestion : Option String := none
  help : Option String := none
deriving DecidableEq

namespace Diagnostic

def Cause.reportAt (cause : Cause) (location : Location) : Diagnostic where
  kind := cause.kind
  message := cause.message
  location := location
  suggestion := cause.suggestion
  help := cause.help

/-- Adds the offending line and the file name. A place that is not known takes neither, and a
place that already has a file keeps it. -/
def attachSource (file : Option String) (source : String) (report : Diagnostic) : Diagnostic :=
  if report.location.isKnown then
    { report with
      sourceLine := Text.lineAt? source report.location.line <|> report.sourceLine
      location := { report.location with file := report.location.file <|> file } }
  else report

end Diagnostic
end LoopScript
