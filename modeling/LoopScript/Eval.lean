import LoopScript.Program
import LoopScript.SymbolTable

/-! The value of an expression under the bindings of a symbol table. -/

namespace LoopScript

open Diagnostic (Cause)

/-- Truth as a number. -/
def truth (holds : Bool) : Float := if holds then 1.0 else 0.0

/-- The result of an operation, if it has one: a quotient by either zero has none. -/
def BinaryOp.apply? (op : BinaryOp) (left right : Float) : Option Float :=
  match op with
  | add => some (left + right)
  | sub => some (left - right)
  | mul => some (left * right)
  | div => if right == 0.0 then none else some (left / right)
  | equal => some (truth (left == right))
  | notEqual => some (truth (left != right))
  | less => some (truth (left < right))
  | lessEqual => some (truth (left ≤ right))
  | greater => some (truth (right < left))
  | greaterEqual => some (truth (right ≤ left))

/-- The value of an expression. Operands are evaluated from the left. -/
def Expr.eval (symbols : SymbolTable) : Expr → Except Diagnostic Float
  | number value => .ok value
  | var name location => symbols.lookup name location
  | negate operand => do
      let value ← operand.eval symbols
      return -value
  | binary op left right location => do
      let first ← left.eval symbols
      let second ← right.eval symbols
      match op.apply? first second with
      | some value => return value
      | none => throw (Cause.divisionByZero.reportAt location)

end LoopScript
