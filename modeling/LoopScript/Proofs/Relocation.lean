import LoopScript.LabelCheck
import LoopScript.Proofs.Grammar

/-! Programs whose places are moved. A place is only ever carried along: no decision of the grammar or of
the label check looks at one. So moving the places of a program's tokens moves the places in its tree,
and a tree with moved places gets the same reports, with their places moved likewise. -/

namespace LoopScript

variable (move : Location → Location)

def Token.relocate (token : Token) : Token := { token with location := move token.location }

def Diagnostic.relocate (report : Diagnostic) : Diagnostic :=
  { report with location := move report.location }

def Expr.relocate : Expr → Expr
  | number value => .number value
  | var name location => .var name (move location)
  | negate operand => .negate operand.relocate
  | binary op left right location => .binary op left.relocate right.relocate (move location)

namespace Stmt

mutual

def relocate : Stmt → Stmt
  | .loop label body location => .loop label (relocateBlock body) (move location)
  | .leave target location => .leave target (move location)
  | .read names location => .read names (move location)
  | .print names location => .print names (move location)
  | .cond condition thenBranch elseBranch =>
      .cond (condition.relocate move) (relocateBlock thenBranch) (relocateBranch elseBranch)
  | .assign name value location => .assign name (value.relocate move) (move location)

def relocateBlock : List Stmt → List Stmt
  | [] => []
  | stmt :: rest => relocate stmt :: relocateBlock rest

def relocateBranch : Option (List Stmt) → Option (List Stmt)
  | none => none
  | some stmts => some (relocateBlock stmts)

end

end Stmt

open Stmt (relocateBlock relocateBranch)

theorem Expr.relocate_id (e : Expr) : e.relocate id = e := by
  induction e with
  | number | var => rfl
  | negate operand ih => rw [relocate, ih]
  | binary op left right location ihleft ihright => rw [relocate, ihleft, ihright]; rfl

mutual

theorem Stmt.relocate_id : (stmt : Stmt) → stmt.relocate id = stmt
  | .loop label body location => by rw [relocate, Stmt.relocateBlock_id body]; rfl
  | .cond condition thenBranch none => by
      rw [relocate, condition.relocate_id, Stmt.relocateBlock_id thenBranch]
      rfl
  | .cond condition thenBranch (some branch) => by
      rw [relocate, condition.relocate_id, Stmt.relocateBlock_id thenBranch, relocateBranch,
        Stmt.relocateBlock_id branch]
  | .assign name value location => by rw [relocate, value.relocate_id]; rfl
  | .leave _ _ => rfl
  | .read _ _ => rfl
  | .print _ _ => rfl

theorem Stmt.relocateBlock_id : (stmts : List Stmt) → relocateBlock id stmts = stmts
  | [] => rfl
  | first :: rest => by rw [relocateBlock, Stmt.relocate_id first, Stmt.relocateBlock_id rest]

end

namespace Grammar

/-! ### Derivations -/

theorem Expression.relocate {rank : Rank} {ts : List Token} {e : Expr} (h : Expression rank ts e) :
    Expression rank (ts.map (Token.relocate move)) (e.relocate move) := by
  induction h with
  | number hkind hvalue => exact .number hkind hvalue
  | @name token hkind =>
      have hkind' : (token.relocate move).kind = .identifier := hkind
      exact .name hkind'
  | group hopening _ hclosing ih =>
      rw [List.map_cons, List.map_append]
      exact .group hopening ih hclosing
  | unsigned _ ih => exact .unsigned ih
  | negated hsign _ ih => exact .negated hsign ih
  | operand _ ih => exact .operand ih
  | @operation tier sign op _ _ _ _ _ hsign _ ihleft ihright =>
      have hsign' : Operator tier (sign.relocate move).kind op := hsign
      rw [List.map_append, List.map_cons]
      exact .operation ihleft hsign' ihright

theorem NamesTail.relocate {ts : List Token} {names : List String} (h : NamesTail ts names) :
    NamesTail (ts.map (Token.relocate move)) names := by
  induction h with
  | nil => exact .nil
  | cons hcomma hname _ ih => exact .cons hcomma hname ih

theorem Names.relocate {ts : List Token} {names : List String} {location : Location}
    (h : Names ts (names, location)) : Names (ts.map (Token.relocate move)) (names, move location) := by
  cases h with
  | @mk token name _ _ hname rest =>
      have hname' : (token.relocate move).IsIdentifier name := hname
      exact .mk hname' (rest.relocate move)

mutual

theorem Statement.relocate {ts : List Token} {stmt : Stmt} (h : Statement ts stmt) :
    Statement (ts.map (Token.relocate move)) (stmt.relocate move) := by
  cases h with
  | @loop keyword _ _ _ _ _ _ hkeyword hlabel hcolon hbody hclosing =>
      have hkeyword' : (keyword.relocate move).kind = .loopWord := hkeyword
      rw [List.map_cons, List.map_cons, List.map_cons, List.map_append, Stmt.relocate]
      exact .loop hkeyword' hlabel hcolon hbody.relocate hclosing
  | @leave keyword hkeyword =>
      have hkeyword' : (keyword.relocate move).kind = .breakWord := hkeyword
      rw [Stmt.relocate]
      exact .leave hkeyword'
  | @leaveNamed keyword _ _ hkeyword htarget =>
      have hkeyword' : (keyword.relocate move).kind = .breakWord := hkeyword
      rw [Stmt.relocate]
      exact .leaveNamed hkeyword' htarget
  | read hkeyword hnames =>
      rw [Stmt.relocate]
      exact .read hkeyword (hnames.relocate move)
  | print hkeyword hnames =>
      rw [Stmt.relocate]
      exact .print hkeyword (hnames.relocate move)
  | cond hkeyword hcondition hthen hbranch hclosing =>
      rw [List.map_cons, List.map_append, List.map_cons, List.map_append, Stmt.relocate, relocateBranch]
      exact .cond hkeyword (hcondition.relocate move) hthen hbranch.relocate hclosing
  | condElse hkeyword hcondition hthen hbranch helse hother hclosing =>
      rw [List.map_cons, List.map_append, List.map_cons, List.map_append, List.map_cons, List.map_append,
        Stmt.relocate, relocateBranch]
      exact .condElse hkeyword (hcondition.relocate move) hthen hbranch.relocate helse hother.relocate
        hclosing
  | @assign token _ name _ _ hname hsign hvalue =>
      have hname' : (token.relocate move).IsIdentifier name := hname
      rw [Stmt.relocate]
      exact .assign hname' hsign (hvalue.relocate move)

theorem Block.relocate {ts : List Token} {stmts : List Stmt} (h : Block ts stmts) :
    Block (ts.map (Token.relocate move)) (relocateBlock move stmts) := by
  cases h with
  | nil => exact .nil
  | cons head hsemicolon tail =>
      rw [List.map_append, List.map_cons, relocateBlock]
      exact .cons head.relocate hsemicolon tail.relocate

end

end Grammar

/-! ### The label check -/

namespace LabelCheck

mutual

theorem stmtErrors_relocate (scope : Scope) : (stmt : Stmt) →
    stmtErrors scope (stmt.relocate move) = (stmtErrors scope stmt).map (Diagnostic.relocate move)
  | .loop label body _ => by
      rw [Stmt.relocate, stmtErrors, stmtErrors]
      exact blockErrors_relocate (label :: scope) body
  | .leave target location => by
      rw [Stmt.relocate, stmtErrors, stmtErrors]
      cases breakCause? scope target <;> rfl
  | .cond _ thenBranch none => by
      rw [Stmt.relocate, stmtErrors, stmtErrors, List.map_append, blockErrors_relocate]
      rfl
  | .cond _ thenBranch (some branch) => by
      rw [Stmt.relocate, stmtErrors, stmtErrors, List.map_append, blockErrors_relocate, relocateBranch,
        branchErrors, branchErrors, blockErrors_relocate]
  | .read _ _ => rfl
  | .print _ _ => rfl
  | .assign _ _ _ => rfl

theorem blockErrors_relocate (scope : Scope) : (stmts : List Stmt) →
    blockErrors scope (relocateBlock move stmts) =
      (blockErrors scope stmts).map (Diagnostic.relocate move)
  | [] => rfl
  | first :: rest => by
      rw [relocateBlock, blockErrors, blockErrors, List.map_append, stmtErrors_relocate,
        blockErrors_relocate]

end

end LabelCheck

end LoopScript
