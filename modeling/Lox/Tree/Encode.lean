import Lox.Json.Basic
import Lox.Tree.Basic

/-! The JSON form of trees: an object for every node, with its type first and its location last.
Parts that are absent have no field. -/

namespace Lox

def Location.toJson (l : Location) : Json :=
  .object [("line", .number l.line), ("column", .number l.column)]

def Literal.toJson : Literal → Json
  | .number x => .number x
  | .string t => .string t
  | .bool b => .bool b
  | .nil => .null

/-- A node of the given type with the given parts. -/
def nodeJson (type : Text) (parts : List (Text × Json)) (location : Location) : Json :=
  .object (List.cons ("type", .string type) (parts.concat ("loc", location.toJson)))

/-- A part that is left out where there is nothing. -/
def optionalPart (key : Text) (part : Option Json) : List (Text × Json) :=
  match part with
  | none => []
  | some j => [(key, j)]

def namesJson (names : List Name) : Json := .array (names.map .string)

mutual

def Expr.toJson : Expr Location → Json
  | .binary n l op r =>
    nodeJson "binary" [("left", l.toJson), ("operator", .string op.sign), ("right", r.toJson)] n
  | .grouping n e => nodeJson "grouping" [("expression", e.toJson)] n
  | .literal n v => nodeJson "literal" [("value", v.toJson)] n
  | .unary n op e => nodeJson "unary" [("operator", .string op.sign), ("operand", e.toJson)] n
  | .reference n x => nodeJson "variable" [("name", .string x)] n
  | .assign n x e => nodeJson "assign" [("name", .string x), ("value", e.toJson)] n
  | .logical n l op r =>
    nodeJson "logical" [("left", l.toJson), ("operator", .string op.sign), ("right", r.toJson)] n
  | .call n c args =>
    nodeJson "call" [("callee", c.toJson), ("args", .array (Expr.allToJson args))] n

def Expr.allToJson : List (Expr Location) → List Json
  | [] => []
  | e :: rest => e.toJson :: Expr.allToJson rest

end

mutual

def Stmt.toJson : Stmt Location → Json
  | .expression n e => nodeJson "expression" [("expression", e.toJson)] n
  | .print n e => nodeJson "print" [("expression", e.toJson)] n
  | .varDecl n x e =>
    nodeJson "var" (("name", .string x) :: optionalPart "initializer" (e.map Expr.toJson)) n
  | .block n body => nodeJson "block" [("statements", .array (Program.itemsToJson body))] n
  | .ifElse n c t none =>
    nodeJson "if" [("condition", c.toJson), ("thenBranch", t.toJson)] n
  | .ifElse n c t (some e) =>
    nodeJson "if"
      [("condition", c.toJson), ("thenBranch", t.toJson), ("elseBranch", e.toJson)] n
  | .whileLoop n c body => nodeJson "while" [("condition", c.toJson), ("body", body.toJson)] n
  | .funDecl n x params body =>
    nodeJson "function"
      [("name", .string x), ("params", namesJson params),
        ("body", .array (Program.itemsToJson body))] n
  | .returnStmt n e => nodeJson "return" (optionalPart "value" (e.map Expr.toJson)) n

def Program.itemsToJson : Program Location → List Json
  | [] => []
  | s :: rest => s.toJson :: Program.itemsToJson rest

end

def Program.toJson (p : Program Location) : Json := .array (Program.itemsToJson p)

end Lox
