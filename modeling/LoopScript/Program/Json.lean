import LoopScript.Program
import LoopScript.Text.Json

/-! Programs as JSON values. -/

namespace LoopScript

open Text (Json)

def optionalText : Option String → Json
  | none => .null
  | some text => .string text

/-- A place; the file is left out when there is none. -/
def Location.toJson (place : Location) : Json :=
  let position := [("line", Json.nat place.line), ("column", Json.nat place.column)]
  match place.file with
  | none => .object position
  | some file => .object (position ++ [("file", .string file)])

def BinaryOp.jsonName : BinaryOp → String
  | add => "Add"
  | sub => "Sub"
  | mul => "Mul"
  | div => "Div"
  | equal => "Eq"
  | notEqual => "Ne"
  | less => "Lt"
  | lessEqual => "Le"
  | greater => "Gt"
  | greaterEqual => "Ge"

/-- An expression as an object that starts with its kind. -/
def Expr.toJson : Expr → Json
  | number value => .object [("kind", .string "Number"), ("value", .float value)]
  | var name location =>
      .object [("kind", .string "Var"), ("name", .string name), ("location", location.toJson)]
  | negate operand => .object [("kind", .string "Neg"), ("operand", operand.toJson)]
  | binary op left right location =>
      .object
        [("kind", .string "Binary"), ("left", left.toJson), ("op", .string op.jsonName),
         ("right", right.toJson), ("location", location.toJson)]

def namesJson (names : List String) : Json := .array (names.map Json.string)

def targetJson (target : Option String) : Json := .object [("id", optionalText target)]

/-- The names of READ and PRINT and their place. -/
def namesMembers (names : List String) (location : Location) : List (String × Json) :=
  [("ids", namesJson names), ("location", location.toJson)]

/-- A list of statements, from the objects of its statements. -/
def blockJson (items : List Json) : Json := .object [("stmts", .array items)]

namespace Stmt

mutual

/-- The kind of a statement and its members. -/
def members : Stmt → String × List (String × Json)
  | loop label body location =>
      ("Loop",
        [("id", optionalText label), ("body", blockJson (itemsJson body)), ("location", location.toJson)])
  | leave target location =>
      ("Break", [("target", targetJson target), ("location", location.toJson)])
  | read names location => ("Read", namesMembers names location)
  | print names location => ("Print", namesMembers names location)
  | cond condition thenBranch elseBranch =>
      ("If",
        [("condition", condition.toJson), ("then_branch", blockJson (itemsJson thenBranch)),
         ("else_branch", branchJson elseBranch)])
  | assign name value location =>
      ("Assign", [("name", .string name), ("value", value.toJson), ("location", location.toJson)])

def itemsJson : List Stmt → List Json
  | [] => []
  | stmt :: rest =>
      let (kind, members) := members stmt
      .object (("kind", .string kind) :: members) :: itemsJson rest

def branchJson : Option (List Stmt) → Json
  | none => .null
  | some stmts => blockJson (itemsJson stmts)

end

/-- A list of statements as an array inside an object. -/
def listJson (stmts : List Stmt) : Json := blockJson (itemsJson stmts)

/-- A statement as an object that starts with its kind. -/
def toJson (stmt : Stmt) : Json :=
  let (kind, members) := stmt.members
  .object (("kind", .string kind) :: members)

/-- A statement as an object without its kind. -/
def bareJson (stmt : Stmt) : Json := .object stmt.members.2

end Stmt

def Program.toJson (program : Program) : Json := .object [("body", Stmt.listJson program.body)]

end LoopScript
