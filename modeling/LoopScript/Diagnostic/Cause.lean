import LoopScript.Text.EditDistance
import LoopScript.Token.Kind

/-! Why a program fails, and the words for it.

Everything that can go wrong is a constructor of `Cause`. The kind, the message, the suggestion
and the help of a cause are functions of it, so that the wording stands in one place. -/

namespace LoopScript.Diagnostic

/-- The classes of failures. -/
inductive Kind where
  | lexical | grammatical
  | breakOutsideLoop | undefinedLabel | unboundIdentifier
  | input | divisionByZero | iterationLimit | device
deriving DecidableEq

def Kind.title : Kind → String
  | lexical => "Lex Error"
  | grammatical => "Syntax Error"
  | breakOutsideLoop => "Break Outside Loop"
  | undefinedLabel => "Undefined Loop Label"
  | unboundIdentifier => "Unbound Identifier"
  | input => "Input Error"
  | divisionByZero => "Division By Zero"
  | iterationLimit => "Iteration Limit"
  | device => "I/O Error"

/-- What the grammar asks for at a point of the text. -/
inductive Wanted where
  | statement | semicolon
  | loopWord | loopName | loopColon | repeatWord
  | breakWord | readWord | printWord
  | identifier | comma | identifierAfterComma
  | ifWord | thenWord | elseWord | endWord
  | assignSign | expression | rightParen
deriving DecidableEq

def Wanted.message : Wanted → String
  | statement => "Expected a statement"
  | semicolon => "Expected ';' after statement"
  | loopWord => "Expected 'LOOP'"
  | loopName => "Expected loop identifier"
  | loopColon => "Expected ':' after loop identifier"
  | repeatWord => "Expected 'REPEAT' after loop body"
  | breakWord => "Expected 'BREAK'"
  | readWord => "Expected 'READ'"
  | printWord => "Expected 'PRINT'"
  | identifier => "Expected identifier"
  | comma => "Expected ','"
  | identifierAfterComma => "Expected identifier after ','"
  | ifWord => "Expected 'IF'"
  | thenWord => "Expected 'THEN' after IF condition"
  | elseWord => "Expected 'ELSE'"
  | endWord => "Expected 'END' to close IF"
  | assignSign => "Expected '=' in assignment"
  | expression => "Expected an expression"
  | rightParen => "Expected ')'"

/-- Why a program fails. -/
inductive Cause where
  /-- No token starts with this character. -/
  | unexpectedCharacter (c : Char)
  /-- The grammar wants something other than the token found. -/
  | missing (wanted : Wanted) (found : Token.Kind)
  /-- A number token whose text is not a number. -/
  | invalidNumber (text : String)
  /-- A BREAK with no loop around it. -/
  | breakOutsideLoop
  /-- A BREAK that names none of the loops around it. -/
  | undefinedLabel (name : String) (active : List String)
  /-- A name that has no value. -/
  | unboundIdentifier (name : String) (known : List String)
  /-- A READ with no input left. -/
  | endOfInput
  /-- A READ that meets a word that is not a number, on this line of the input. -/
  | notNumeric (line : Nat) (word : String)
  /-- The input cannot be read. -/
  | unreadable (reason : String)
  /-- The output cannot be written. -/
  | unwritable (reason : String)
  /-- A quotient by zero. -/
  | divisionByZero
  /-- A loop that went on for longer than allowed. -/
  | iterationLimit (loop : String) (limit : Nat)
deriving DecidableEq

namespace Cause

def kind : Cause → Kind
  | unexpectedCharacter _ => .lexical
  | missing _ _ => .grammatical
  | invalidNumber _ => .grammatical
  | breakOutsideLoop => .breakOutsideLoop
  | undefinedLabel _ _ => .undefinedLabel
  | unboundIdentifier _ _ => .unboundIdentifier
  | endOfInput => .input
  | notNumeric _ _ => .input
  | unreadable _ => .device
  | unwritable _ => .device
  | divisionByZero => .divisionByZero
  | iterationLimit _ _ => .iterationLimit

def message : Cause → String
  | unexpectedCharacter c => s!"Unexpected character '{c}'"
  | missing wanted _ => wanted.message
  | invalidNumber text => s!"Invalid number '{text}'"
  | breakOutsideLoop => "BREAK used outside of any loop"
  | undefinedLabel name _ => s!"No enclosing loop is labeled '{name}'"
  | unboundIdentifier name _ => s!"Identifier '{name}' is not bound"
  | endOfInput => "Unexpected end of input while reading a number"
  | notNumeric line word => s!"Expected a number on input line {line}, found '{word}'"
  | unreadable reason => s!"Failed to read input: {reason}"
  | unwritable reason => s!"Failed to write output: {reason}"
  | divisionByZero => "Division by zero"
  | iterationLimit loop limit => s!"Loop '{loop}' reached its limit of {limit} iterations"

/-- The name that was perhaps meant. -/
def suggestion : Cause → Option String
  | undefinedLabel name active => Text.closest? name active
  | unboundIdentifier name known => Text.closest? name known
  | _ => none

/-- What the reader of a message is told to look at. A name with a suggestion needs no help. -/
def help : Cause → Option String
  | missing _ found => some s!"found {found.describe}"
  | unboundIdentifier name known =>
      match Text.closest? name known with
      | some _ => none
      | none => some "assign it or READ it before use"
  | iterationLimit _ _ => some "add a BREAK or raise run.max_loop_iterations"
  | _ => none

end Cause
end LoopScript.Diagnostic
