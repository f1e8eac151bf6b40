import Lox.Json.Basic
import Lox.Number.Whole
import Lox.Tree.Issue
import Lox.Tree.Load

/-! Trees read from their JSON form. First every part is checked, so one reading finds every
mismatch, in the order in which the parts of a node are listed; fields that no node has are passed
over. From what has passed the checks a tree is made. -/

namespace Lox

namespace Decode

open Issue Text

variable {α : Type}

def expected (path kind : Text) (j : Json) : Checked α := .fail path (.otherKind kind j.kindName)

/-- A line or column: a whole number that is not negative. Both faults are found. -/
def coordinate (path : Text) : Option Json → Checked Float
  | none => .fail path .missing
  | some (.number x) =>
    if Number.isNaN x then expected path "number" (.number x)
    else
      match Number.isWhole x, Number.isBelowZero x with
      | true, false => .ok x
      | false, false => .fail path .notInteger
      | true, true => .fail path .negative
      | false, true => .wrong ⟨path, .notInteger⟩ [⟨path, .negative⟩]
  | some j => expected path "number" j

/-- The location of a node, which need not have one. -/
def location (path : Text) (node : Json) : Checked (Option Location) :=
  let path := pathTo path "loc"
  match node.field? "loc" with
  | none => .ok none
  | some l =>
    if l.isObject then
      (fun line column => some ⟨line, column⟩) <$> coordinate (pathTo path "line") (l.field? "line")
        <*> coordinate (pathTo path "column") (l.field? "column")
    else expected path "object" l

def identifier (path : Text) : Option Json → Checked Name
  | none => .fail path .missing
  | some (.string x) => if isIdentifier x then .ok x else .fail path .notIdentifier
  | some j => expected path "string" j

def identifiersFrom (path : Text) (index : Nat) : List Json → Checked (List Name)
  | [] => .ok []
  | j :: rest =>
    List.cons <$> identifier (pathTo path (ofNat index)) (some j)
      <*> identifiersFrom path (index + 1) rest

def identifiers (path : Text) : Option Json → Checked (List Name)
  | none => .fail path .missing
  | some (.array items) => identifiersFrom path 0 items
  | some j => expected path "array" j

/-- One of some choices, each of which has a text. -/
def choice (path : Text) (choices : List α) (text : α → Text) : Option Json → Checked α
  | none => .fail path .missing
  | some (.string t) =>
    match choices.find? (text · = t) with
    | some a => .ok a
    | none => .fail path (.unknownChoice (choices.map text) t)
  | some j => expected path (alternatives (choices.map text)) j

def literal (path : Text) : Option Json → Checked Literal
  | some (.number x) => if Number.isNaN x then .fail path .notLiteral else .ok (.number x)
  | some (.string t) => .ok (.string t)
  | some (.bool b) => .ok (.bool b)
  | some .null => .ok .nil
  | _ => .fail path .notLiteral

/-- The types of expressions, in the order in which messages name them. -/
inductive ExprType where
  | binary | grouping | literal | unary | reference | assign | logical | call
  deriving DecidableEq

def ExprType.text : ExprType → Text
  | binary => "binary"
  | grouping => "grouping"
  | literal => "literal"
  | unary => "unary"
  | reference => "variable"
  | assign => "assign"
  | logical => "logical"
  | call => "call"

def ExprType.all : List ExprType :=
  [binary, grouping, literal, unary, reference, assign, logical, call]

/-- The types of statements, in the order in which messages name them. -/
inductive StmtType where
  | expression | print | varDecl | block | ifElse | whileLoop | funDecl | returnStmt
  deriving DecidableEq

def StmtType.text : StmtType → Text
  | expression => "expression"
  | print => "print"
  | varDecl => "var"
  | block => "block"
  | ifElse => "if"
  | whileLoop => "while"
  | funDecl => "function"
  | returnStmt => "return"

def StmtType.all : List StmtType :=
  [expression, print, varDecl, block, ifElse, whileLoop, funDecl, returnStmt]

/-- The type of a node among those that its place allows. -/
def typeOf? (types : List α) (text : α → Text) (node : Json) : Option α :=
  match node.field? "type" with
  | some (.string t) => types.find? (text · = t)
  | _ => none

mutual

def expr (path : Text) (node : Json) : Checked (Expr (Option Location)) :=
  if node.isObject then
    match typeOf? ExprType.all ExprType.text node with
    | none => .fail (pathTo path "type") (.unknownType (ExprType.all.map ExprType.text))
    | some .binary =>
      (fun l op r n => .binary n l op r) <$> exprPart path node "left"
        <*> choice (pathTo path "operator") BinaryOp.all BinaryOp.sign (node.field? "operator")
        <*> exprPart path node "right" <*> location path node
    | some .grouping =>
      (fun e n => .grouping n e) <$> exprPart path node "expression" <*> location path node
    | some .literal =>
      (fun v n => .literal n v) <$> literal (pathTo path "value") (node.field? "value")
        <*> location path node
    | some .unary =>
      (fun op e n => .unary n op e)
        <$> choice (pathTo path "operator") UnaryOp.all UnaryOp.sign (node.field? "operator")
        <*> exprPart path node "operand" <*> location path node
    | some .reference =>
      (fun x n => .reference n x) <$> identifier (pathTo path "name") (node.field? "name")
        <*> location path node
    | some .assign =>
      (fun x e n => .assign n x e) <$> identifier (pathTo path "name") (node.field? "name")
        <*> exprPart path node "value" <*> location path node
    | some .logical =>
      (fun l op r n => .logical n l op r) <$> exprPart path node "left"
        <*> choice (pathTo path "operator") LogicalOp.all LogicalOp.sign (node.field? "operator")
        <*> exprPart path node "right" <*> location path node
    | some .call =>
      (fun c args n => .call n c args) <$> exprPart path node "callee"
        <*> exprsPart path node "args" <*> location path node
  else expected path "object" node
  termination_by (sizeOf node, 1)

/-- The expression under a key of a node. -/
def exprPart (path : Text) (node : Json) (key : Text) : Checked (Expr (Option Location)) :=
  match _h : node.field? key with
  | none => .fail (pathTo path key) .missing
  | some j => expr (pathTo path key) j
  termination_by (sizeOf node, 0)
  decreasing_by exact Prod.Lex.left _ _ (Json.sizeOf_field?_lt _h)

def exprsPart (path : Text) (node : Json) (key : Text) : Checked (List (Expr (Option Location))) :=
  match _h : node.field? key with
  | none => .fail (pathTo path key) .missing
  | some (.array items) => exprsFrom (pathTo path key) 0 items
  | some j => expected (pathTo path key) "array" j
  termination_by (sizeOf node, 0)
  decreasing_by
    have := Json.sizeOf_field?_lt _h
    simp at this
    exact Prod.Lex.left _ _ (by omega)

def exprsFrom (path : Text) (index : Nat) (items : List Json) :
    Checked (List (Expr (Option Location))) :=
  match items with
  | [] => .ok []
  | j :: rest =>
    List.cons <$> expr (pathTo path (ofNat index)) j <*> exprsFrom path (index + 1) rest
  termination_by (sizeOf items, 0)

end

def optionalExpr (path : Text) (node : Json) (key : Text) :
    Checked (Option (Expr (Option Location))) :=
  match node.field? key with
  | none => .ok none
  | some j => some <$> expr (pathTo path key) j

mutual

def stmt (path : Text) (node : Json) : Checked (Stmt (Option Location)) :=
  if node.isObject then
    match typeOf? StmtType.all StmtType.text node with
    | none => .fail (pathTo path "type") (.unknownType (StmtType.all.map StmtType.text))
    | some .expression =>
      (fun e n => .expression n e) <$> exprPart path node "expression" <*> location path node
    | some .print =>
      (fun e n => .print n e) <$> exprPart path node "expression" <*> location path node
    | some .varDecl =>
      (fun x e n => .varDecl n x e) <$> identifier (pathTo path "name") (node.field? "name")
        <*> optionalExpr path node "initializer" <*> location path node
    | some .block =>
      (fun body n => .block n body) <$> stmtsPart path node "statements" <*> location path node
    | some .ifElse =>
      (fun c t e n => .ifElse n c t e) <$> exprPart path node "condition"
        <*> stmtPart path node "thenBranch" <*> optionalStmt path node "elseBranch"
        <*> location path node
    | some .whileLoop =>
      (fun c body n => .whileLoop n c body) <$> exprPart path node "condition"
        <*> stmtPart path node "body" <*> location path node
    | some .funDecl =>
      (fun x params body n => .funDecl n x params body)
        <$> identifier (pathTo path "name") (node.field? "name")
        <*> identifiers (pathTo path "params") (node.field? "params")
        <*> stmtsPart path node "body" <*> location path node
    | some .returnStmt =>
      (fun e n => .returnStmt n e) <$> optionalExpr path node "value" <*> location path node
  else expected path "object" node
  termination_by (sizeOf node, 1)

def stmtPart (path : Text) (node : Json) (key : Text) : Checked (Stmt (Option Location)) :=
  match _h : node.field? key with
  | none => .fail (pathTo path key) .missing
  | some j => stmt (pathTo path key) j
  termination_by (sizeOf node, 0)
  decreasing_by exact Prod.Lex.left _ _ (Json.sizeOf_field?_lt _h)

def optionalStmt (path : Text) (node : Json) (key : Text) :
    Checked (Option (Stmt (Option Location))) :=
  match _h : node.field? key with
  | none => .ok none
  | some j => some <$> stmt (pathTo path key) j
  termination_by (sizeOf node, 0)
  decreasing_by exact Prod.Lex.left _ _ (Json.sizeOf_field?_lt _h)

def stmtsPart (path : Text) (node : Json) (key : Text) : Checked (Program (Option Location)) :=
  match _h : node.field? key with
  | none => .fail (pathTo path key) .missing
  | some (.array items) => stmtsFrom (pathTo path key) 0 items
  | some j => expected (pathTo path key) "array" j
  termination_by (sizeOf node, 0)
  decreasing_by
    have := Json.sizeOf_field?_lt _h
    simp at this
    exact Prod.Lex.left _ _ (by omega)

def stmtsFrom (path : Text) (index : Nat) (items : List Json) :
    Checked (Program (Option Location)) :=
  match items with
  | [] => .ok []
  | j :: rest =>
    List.cons <$> stmt (pathTo path (ofNat index)) j <*> stmtsFrom path (index + 1) rest
  termination_by (sizeOf items, 0)

end

end Decode

/-- Checks the JSON form of a program, if there is any value at all. -/
def Program.check : Option Json → Checked (Program (Option Location))
  | none => .fail [] .missing
  | some (.array items) => Decode.stmtsFrom [] 0 items
  | some j => Decode.expected [] "array" j

def Program.ofJson? (j : Option Json) : Checked (Program Location) :=
  (fun p => (Program.load p ()).1) <$> Program.check j

/-- The program of a JSON value, whose nodes get keys from `k` on, and the first key left over. -/
def Program.ofJsonKeyed? (k : Nat) (j : Option Json) : Checked (Program Node × Nat) :=
  (fun p => Program.load p k) <$> Program.check j

end Lox
