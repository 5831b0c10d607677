import LoopScript.Main
import LoopScript.Settings.Toml
import LoopScript.Nesting
import LoopScript.Interpreter
import LoopScript.Parser
import LoopScript.LabelCheck
import LoopScript.Program.Json
import LoopScript.Number.Literal
import LoopScript.Number.Plain
import LoopScript.Diagnostic.Render
import LoopScript.Lookahead
import LoopScript.Proofs.Runs
import LoopScript.Proofs.LoopStack
import LoopScript.Proofs.LabelCoverage
import LoopScript.Proofs.Scoped
import LoopScript.Proofs.LexicalScope
import LoopScript.Proofs.Upcoming
import LoopScript.Proofs.Grammar
import LoopScript.Proofs.Recognition
import LoopScript.Proofs.Acceptance
import LoopScript.Proofs.Lexicon
import LoopScript.Proofs.Segmentation
import LoopScript.Proofs.IterationLimit
import LoopScript.Proofs.Refit
import LoopScript.Proofs.CheckedRuns
import LoopScript.Proofs.Expectation
import LoopScript.Proofs.Tracking
import LoopScript.Proofs.Spelling
import LoopScript.Proofs.ValidPrefix
import LoopScript.Proofs.LimitTransparency
import LoopScript.Proofs.EventStream
import LoopScript.Proofs.Relocation
import LoopScript.Proofs.Seams
import LoopScript.Proofs.IncrementalRuns
import LoopScript.Proofs.Reformatting
import LoopScript.Proofs.Suggestions
import LoopScript.Proofs.TokenOrder
import LoopScript.Proofs.BreakSites
import LoopScript.Proofs.Constructs
import LoopScript.Proofs.ReportPlaces
import LoopScript.Proofs.ReadFree
import LoopScript.Proofs.Pauses
import LoopScript.Proofs.Sessions
import LoopScript.Proofs.EditScripts
import LoopScript.Proofs.Bindings
import LoopScript.Proofs.Deliveries
import LoopScript.Proofs.Frame
import LoopScript.Proofs.Mentions
import LoopScript.Proofs.InputWords
import LoopScript.Proofs.NameLists
import LoopScript.Proofs.NumberTexts
import LoopScript.Proofs.PrintedNumbers
import LoopScript.Proofs.ProgramTexts
import LoopScript.Proofs.Budgets
import LoopScript.Proofs.Consumption
import LoopScript.Proofs.Progress
import LoopScript.Proofs.LongestExpression
import LoopScript.Proofs.Detection
import LoopScript.Proofs.CaretColumns
