import LoopScript.Location
import LoopScript.Text.Quoted
import LoopScript.Token.Kind

/-! Events: what reading, parsing, checking and running a program did.

An event is data with a level; its wording is one function. A log keeps the events that are at
least as severe as its threshold, and a log without a threshold keeps none. -/

namespace LoopScript

/-- How severe an event is. -/
inductive Level where
  | warn | info | debug | trace
deriving DecidableEq

namespace Level

/-- The rank of a level; less is more severe. -/
def rank : Level → Nat
  | warn => 0
  | info => 1
  | debug => 2
  | trace => 3

/-- A level as the first word of an event's line. -/
def text : Level → String
  | warn => "WARN"
  | info => "INFO"
  | debug => "DEBUG"
  | trace => "TRACE"

end Level

inductive Event where
  /-- A scan met another kind of token than it looked for. -/
  | rejected (kinds : List Token.Kind) (found : Token.Kind) (depth : Nat)
  /-- A scan met all the kinds it looked for. -/
  | matched (kinds : List Token.Kind) (depth : Nat)
  /-- No statement starts here. -/
  | noStatement
  /-- A loop was parsed. -/
  | parsedLoop (label : Option String) (statements : Nat)
  /-- A loop inside another one of the same name. -/
  | shadowing (label : String) (location : Location)
  /-- A loop starts, below this many others. -/
  | entering (label : String) (depth : Nat)
  /-- A loop ends. -/
  | leaving (label : String)
  /-- A BREAK leaves this many loops. -/
  | unwinding (levels : Nat)
  /-- A program starts. -/
  | executing (statements : Nat)
  /-- A program ends, with this many names bound. -/
  | finished (symbols : Nat)
  /-- A BREAK found no loop in its own program to stop at. -/
  | escaped (label : String)
deriving DecidableEq

namespace Event

def level : Event → Level
  | rejected _ _ _ => .trace
  | matched _ _ => .trace
  | noStatement => .trace
  | parsedLoop _ _ => .debug
  | shadowing _ _ => .warn
  | entering _ _ => .debug
  | leaving _ => .debug
  | unwinding _ => .debug
  | executing _ => .info
  | finished _ => .info
  | escaped _ => .debug

def kindList (kinds : List Token.Kind) : String :=
  "[" ++ String.intercalate ", " (kinds.map (·.name)) ++ "]"

def labelText : Option String → String
  | none => "None"
  | some label => "Some(" ++ Text.quote label ++ ")"

def message : Event → String
  | rejected kinds found depth =>
      s!"lookahead rejected codes={kindList kinds} found={found.describe} depth={depth}"
  | matched kinds depth => s!"lookahead matched codes={kindList kinds} depth={depth}"
  | noStatement => "no statement detected, ending statement list"
  | parsedLoop label statements =>
      s!"parsed loop label={labelText label} statements={statements}"
  | shadowing label location =>
      s!"loop label shadows an enclosing loop label={label} location={location.text}"
  | entering label depth => s!"entering loop label={label} depth={depth}"
  | leaving label => s!"leaving loop label={label}"
  | unwinding levels => s!"break unwinding loop stack levels={levels}"
  | executing statements => s!"executing program statements={statements}"
  | finished symbols => s!"program finished symbols={symbols}"
  | escaped label => s!"break escaped the top-level statement list label={label}"

/-- The line of an event: its level, message and fields. -/
def line (event : Event) : String := event.level.text ++ " " ++ event.message

end Event

/-- The events kept so far, last one first. -/
structure Log where
  threshold : Option Level := none
  events : List Event := []
deriving DecidableEq

namespace Log

/-- Keeps an event if it is severe enough. -/
def record (log : Log) (event : Event) : Log :=
  match log.threshold with
  | some threshold =>
      if event.level.rank ≤ threshold.rank then { log with events := event :: log.events } else log
  | none => log

def lines (log : Log) : List String := log.events.reverse.map Event.line

end Log
end LoopScript
