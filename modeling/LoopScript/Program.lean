import LoopScript.Location
import LoopScript.Token.Kind

/-! Programs: expressions, statements and lists of statements.

All values are binary64 numbers. A loop has a label unless it is anonymous, and a BREAK names the
loop it leaves unless it leaves the innermost one. -/

namespace LoopScript

inductive BinaryOp where
  | add | sub | mul | div
  | equal | notEqual | less | lessEqual | greater | greaterEqual
deriving DecidableEq

namespace BinaryOp

def comparison? : Token.Kind → Option BinaryOp
  | .equal => some equal
  | .notEqual => some notEqual
  | .less => some less
  | .lessEqual => some lessEqual
  | .greater => some greater
  | .greaterEqual => some greaterEqual
  | _ => none

/-- The sum or difference that a token stands for. -/
def additive? : Token.Kind → Option BinaryOp
  | .plus => some add
  | .minus => some sub
  | _ => none

/-- The product or quotient that a token stands for. -/
def multiplicative? : Token.Kind → Option BinaryOp
  | .star => some mul
  | .slash => some div
  | _ => none

end BinaryOp

/-- Expressions. A name has the place of its identifier, an operation that of its operator. -/
inductive Expr where
  | number (value : Float)
  | var (name : String) (location : Location)
  | negate (operand : Expr)
  | binary (op : BinaryOp) (left right : Expr) (location : Location)
deriving DecidableEq

/-- Statements. A loop, a BREAK and an assignment have the place of their first token, READ and
PRINT that of their first identifier. -/
inductive Stmt where
  | loop (label : Option String) (body : List Stmt) (location : Location)
  | leave (target : Option String) (location : Location)
  | read (names : List String) (location : Location)
  | print (names : List String) (location : Location)
  | cond (condition : Expr) (thenBranch : List Stmt) (elseBranch : Option (List Stmt))
  | assign (name : String) (value : Expr) (location : Location)

structure Program where
  body : List Stmt

end LoopScript
