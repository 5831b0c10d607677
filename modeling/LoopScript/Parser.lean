import LoopScript.Lookahead
import LoopScript.Number.Literal
import LoopScript.Program

/-! Parsing: from a reader to expressions, statements and programs.

Which statement comes next is found out by a scan that puts every token back; the statement then
takes the same tokens for good. Blanks are tokens, and are skipped before each token that counts.

Every loop and every nesting step of the parser takes at least one token, so a budget above the
size of the reader is never used up. The functions with a budget stand first; the ones below them
take the budget from the reader. -/

namespace LoopScript.Parser

open Diagnostic (Cause Wanted)

/-- A reader, and the events so far. -/
structure State where
  reader : Reader
  log : Log := {}

/-- Why parsing stops: a report, or a budget that was too small. -/
inductive Failure where
  | report (report : Diagnostic)
  | outOfFuel

/-- Parsing steps: they may fail, and leave a reader in either case. -/
abbrev Parse := EStateM Failure State

def reading {α : Type} (step : Reading α) : Parse α := fun state =>
  match step state.reader with
  | .ok value reader => .ok value { state with reader := reader }
  | .error report reader => .error (.report report) { state with reader := reader }

/-- A scan as a parsing step that puts every token back, also when the scan fails. -/
def peeking {α : Type} (scan : EStateM Diagnostic Lookahead α) : Parse α := fun state =>
  match scan (Lookahead.ofReader state.reader) with
  | .ok value look => .ok value { state with reader := look.close }
  | .error report look => .error (.report report) { state with reader := look.close }

def record (event : Event) : Parse Unit :=
  modify fun state => { state with log := state.log.record event }

/-- Stops with the report of a cause. -/
def fail {α : Type} (cause : Cause) (location : Location) : Parse α :=
  throw (.report (cause.reportAt location))

/-- Takes the next token that is not blank. -/
def significant : Parse Token := reading Reader.skipSpaces

/-- Takes the next token that is not blank, which has to be of this kind. -/
def expect (kind : Token.Kind) (wanted : Wanted) : Parse Token := do
  let token ← significant
  if token.kind = kind then return token
  fail (.missing wanted token.kind) token.location

def peekKind : Parse Token.Kind := peeking Lookahead.significant

/-- Whether the next tokens that are not blank are of these kinds. -/
def detect (kinds : List Token.Kind) : Parse Bool := do
  let verdict ← peeking (Lookahead.see kinds)
  record (verdict.event kinds)
  return verdict.isMatch

def detectLoop : Parse Bool := detect [.loopWord]

def detectBreak : Parse Bool := detect [.breakWord]

def detectRead : Parse Bool := detect [.readWord]

def detectPrint : Parse Bool := detect [.printWord]

def detectIf : Parse Bool := detect [.ifWord]

/-- Whether an assignment comes next: an identifier starts nothing else. -/
def detectAssign : Parse Bool := detect [.identifier]

/-- Whether a comma and a further identifier come next. -/
def detectNamesTail : Parse Bool := detect [.comma, .identifier]

/-! Expressions: comparisons of sums of products of signed operands, each level from the left. -/

/-- A number, a name, or an expression in parentheses. -/
def primary (inner : Parse Expr) : Parse Expr := do
  let token ← significant
  match token.kind with
  | .number =>
      let text := token.text.getD ""
      match Number.Literal.value? text with
      | some value => return .number value
      | none => fail (.invalidNumber text) token.location
  | .identifier => return .var (token.text.getD "") token.location
  | .leftParen =>
      let value ← inner
      let _ ← expect .rightParen .rightParen
      return value
  | found => fail (.missing .expression found) token.location

/-- An operand after any number of minus signs. -/
def unary (operand : Parse Expr) : Nat → Parse Expr
  | 0 => throw .outOfFuel
  | fuel + 1 => do
      if (← peekKind) = .minus then
        let _ ← significant
        let value ← unary operand fuel
        return .negate value
      else operand

/-- The operations of one level that follow an expression, joined to it from the left. -/
def operations (operator? : Token.Kind → Option BinaryOp) (operand : Parse Expr) :
    Nat → Expr → Parse Expr
  | 0, _ => throw .outOfFuel
  | fuel + 1, left => do
      match operator? (← peekKind) with
      | none => return left
      | some op =>
          let token ← significant
          let right ← operand
          operations operator? operand fuel (.binary op left right token.location)

/-- An operand and the operations of one level that follow it. -/
def level (operator? : Token.Kind → Option BinaryOp) (operand : Parse Expr) (fuel : Nat) :
    Parse Expr := do
  let left ← operand
  operations operator? operand fuel left

def expressionWithin : Nat → Parse Expr
  | 0 => throw .outOfFuel
  | fuel + 1 =>
      let signed := unary (primary (expressionWithin fuel)) (fuel + 1)
      let product := level BinaryOp.multiplicative? signed (fuel + 1)
      let sum := level BinaryOp.additive? product (fuel + 1)
      level BinaryOp.comparison? sum (fuel + 1)

/-! Statements. -/

/-- The identifiers that follow, each after a comma. -/
def namesTailWithin : Nat → Parse (List String)
  | 0 => throw .outOfFuel
  | fuel + 1 => do
      if ← detectNamesTail then
        let _ ← expect .comma .comma
        let token ← expect .identifier .identifierAfterComma
        let rest ← namesTailWithin fuel
        return token.text.toList ++ rest
      else return []

/-- One or more identifiers, and the place of the first. -/
def namesWithin (fuel : Nat) : Parse (List String × Location) := do
  let first ← expect .identifier .identifier
  let rest ← namesTailWithin fuel
  return (first.text.toList ++ rest, first.location)

def loopWith (block : Parse (List Stmt)) : Parse Stmt := do
  let keyword ← expect .loopWord .loopWord
  let label ← expect .identifier .loopName
  let _ ← expect .colon .loopColon
  let body ← block
  let _ ← expect .repeatWord .repeatWord
  record (.parsedLoop label.text body.length)
  return .loop label.text body keyword.location

/-- The identifier that comes next, if one does. Any other token is put back. -/
def target : Parse (Option String) := do
  let token ← significant
  if token.kind = .identifier then return token.text
  modify fun state => { state with reader := state.reader.unread token }
  return none

def breakStmt : Parse Stmt := do
  let keyword ← expect .breakWord .breakWord
  let target ← target
  return .leave target keyword.location

def readWithin (fuel : Nat) : Parse Stmt := do
  let _ ← expect .readWord .readWord
  let (names, location) ← namesWithin fuel
  return .read names location

def printWithin (fuel : Nat) : Parse Stmt := do
  let _ ← expect .printWord .printWord
  let (names, location) ← namesWithin fuel
  return .print names location

/-- The branch after ELSE, if there is one. -/
def elseWith (block : Parse (List Stmt)) : Parse (Option (List Stmt)) := do
  if ← detect [.elseWord] then
    let _ ← expect .elseWord .elseWord
    let branch ← block
    return some branch
  else return none

def ifWith (fuel : Nat) (block : Parse (List Stmt)) : Parse Stmt := do
  let _ ← expect .ifWord .ifWord
  let condition ← expressionWithin fuel
  let _ ← expect .thenWord .thenWord
  let thenBranch ← block
  let elseBranch ← elseWith block
  let _ ← expect .endWord .endWord
  return .cond condition thenBranch elseBranch

def assignWithin (fuel : Nat) : Parse Stmt := do
  let name ← expect .identifier .identifier
  let _ ← expect .assign .assignSign
  let value ← expressionWithin fuel
  return .assign (name.text.getD "") value name.location

/-- The statement that comes next, if one does. -/
def statementWith (fuel : Nat) (block : Parse (List Stmt)) : Parse (Option Stmt) := do
  if ← detectLoop then some <$> loopWith block
  else if ← detectBreak then some <$> breakStmt
  else if ← detectRead then some <$> readWithin fuel
  else if ← detectPrint then some <$> printWithin fuel
  else if ← detectIf then some <$> ifWith fuel block
  else if ← detectAssign then some <$> assignWithin fuel
  else
    record .noStatement
    return none

/-- Statements, each ended by a semicolon, for as long as one comes next. -/
def blockWithin : Nat → Parse (List Stmt)
  | 0 => throw .outOfFuel
  | fuel + 1 => do
      match ← statementWith fuel (blockWithin fuel) with
      | none => return []
      | some stmt =>
          let _ ← expect .semicolon .semicolon
          let rest ← blockWithin fuel
          return stmt :: rest

/-! The same steps with a budget that the reader gives. -/

/-- A step with a budget above the size of the reader. -/
def withFuel {α : Type} (step : Nat → Parse α) : Parse α := fun state =>
  step (state.reader.size + 1) state

def expression : Parse Expr := withFuel expressionWithin

def block : Parse (List Stmt) := withFuel blockWithin

def namesTail : Parse (List String) := withFuel namesTailWithin

def names : Parse (List String × Location) := withFuel namesWithin

def loopStmt : Parse Stmt := withFuel fun fuel => loopWith (blockWithin fuel)

def readStmt : Parse Stmt := withFuel readWithin

def printStmt : Parse Stmt := withFuel printWithin

def ifStmt : Parse Stmt := withFuel fun fuel => ifWith fuel (blockWithin fuel)

def assignStmt : Parse Stmt := withFuel assignWithin

/-- A program: statements up to the end of the text. -/
def program : Parse Program := do
  let body ← block
  let token ← significant
  if token.kind = .endOfText then return { body := body }
  fail (.missing .statement token.kind) token.location

def parse (source : String) (log : Log) : EStateM.Result Failure State Program :=
  program { reader := Reader.ofString source, log := log }

end LoopScript.Parser
