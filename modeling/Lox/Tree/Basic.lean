import Lox.Source.Location

/-! Syntax trees. Every node carries one annotation of a type that is left open: a place in a
source text while a program is read, a location and a key once it can be resolved and run. -/

namespace Lox

abbrev Name := Text

inductive Literal where
  | number (value : Float)
  | string (value : Text)
  | bool (value : Bool)
  | nil
  deriving DecidableEq

inductive UnaryOp where
  | negate | not
  deriving DecidableEq, Repr

inductive BinaryOp where
  | add | subtract | multiply | divide | remainder
  | greater | greaterEqual | less | lessEqual
  | equal | notEqual
  deriving DecidableEq, Repr

inductive LogicalOp where
  | and | or
  deriving DecidableEq, Repr

/-- How operators are written; the first of a list is the first that a message names. -/
def UnaryOp.sign : UnaryOp → Text
  | negate => "-"
  | not => "!"

def UnaryOp.all : List UnaryOp := [negate, not]

def BinaryOp.sign : BinaryOp → Text
  | add => "+"
  | subtract => "-"
  | multiply => "*"
  | divide => "/"
  | remainder => "%"
  | greater => ">"
  | greaterEqual => ">="
  | less => "<"
  | lessEqual => "<="
  | equal => "=="
  | notEqual => "!="

def BinaryOp.all : List BinaryOp :=
  [add, subtract, multiply, divide, remainder, greater, greaterEqual, less, lessEqual, equal,
    notEqual]

def LogicalOp.sign : LogicalOp → Text
  | and => "and"
  | or => "or"

def LogicalOp.all : List LogicalOp := [and, or]

inductive Expr (α : Type) where
  | binary (note : α) (left : Expr α) (op : BinaryOp) (right : Expr α)
  | grouping (note : α) (inner : Expr α)
  | literal (note : α) (value : Literal)
  | unary (note : α) (op : UnaryOp) (operand : Expr α)
  | reference (note : α) (name : Name)
  | assign (note : α) (name : Name) (value : Expr α)
  | logical (note : α) (left : Expr α) (op : LogicalOp) (right : Expr α)
  | call (note : α) (callee : Expr α) (args : List (Expr α))

inductive Stmt (α : Type) where
  | expression (note : α) (value : Expr α)
  | print (note : α) (value : Expr α)
  | varDecl (note : α) (name : Name) (initializer : Option (Expr α))
  | block (note : α) (body : List (Stmt α))
  | ifElse (note : α) (condition : Expr α) (thenBranch : Stmt α) (elseBranch : Option (Stmt α))
  | whileLoop (note : α) (condition : Expr α) (body : Stmt α)
  | funDecl (note : α) (name : Name) (params : List Name) (body : List (Stmt α))
  | returnStmt (note : α) (value : Option (Expr α))

/-- A program is a list of statements. -/
abbrev Program (α : Type) := List (Stmt α)

variable {α β : Type}

def Expr.note : Expr α → α
  | .binary n .. | .grouping n _ | .literal n _ | .unary n .. | .reference n _ | .assign n ..
  | .logical n .. | .call n .. => n

def Stmt.note : Stmt α → α
  | .expression n _ | .print n _ | .varDecl n .. | .block n _ | .ifElse n .. | .whileLoop n ..
  | .funDecl n .. | .returnStmt n _ => n

mutual

/-- Changes every annotation and nothing else. -/
def Expr.map (f : α → β) : Expr α → Expr β
  | .binary n l op r => .binary (f n) (l.map f) op (r.map f)
  | .grouping n e => .grouping (f n) (e.map f)
  | .literal n v => .literal (f n) v
  | .unary n op e => .unary (f n) op (e.map f)
  | .reference n x => .reference (f n) x
  | .assign n x e => .assign (f n) x (e.map f)
  | .logical n l op r => .logical (f n) (l.map f) op (r.map f)
  | .call n c args => .call (f n) (c.map f) (Expr.mapAll f args)

def Expr.mapAll (f : α → β) : List (Expr α) → List (Expr β)
  | [] => []
  | e :: rest => e.map f :: Expr.mapAll f rest

end

mutual

/-- Changes every annotation and nothing else. -/
def Stmt.map (f : α → β) : Stmt α → Stmt β
  | .expression n e => .expression (f n) (e.map f)
  | .print n e => .print (f n) (e.map f)
  | .varDecl n x e => .varDecl (f n) x (e.map (·.map f))
  | .block n body => .block (f n) (Program.map f body)
  | .ifElse n c t none => .ifElse (f n) (c.map f) (t.map f) none
  | .ifElse n c t (some e) => .ifElse (f n) (c.map f) (t.map f) (some (e.map f))
  | .whileLoop n c body => .whileLoop (f n) (c.map f) (body.map f)
  | .funDecl n x params body => .funDecl (f n) x params (Program.map f body)
  | .returnStmt n e => .returnStmt (f n) (e.map (·.map f))

def Program.map (f : α → β) : Program α → Program β
  | [] => []
  | s :: rest => s.map f :: Program.map f rest

end

/-- A node that reads or writes a variable. -/
structure Access (α : Type) where
  writes : Bool
  note : α
  name : Name

mutual

/-- The accesses of an expression from left to right; a write comes after its value. -/
def Expr.accesses : Expr α → List (Access α)
  | .binary _ l _ r => l.accesses ++ r.accesses
  | .grouping _ e => e.accesses
  | .literal .. => []
  | .unary _ _ e => e.accesses
  | .reference n x => [⟨false, n, x⟩]
  | .assign n x e => e.accesses ++ [⟨true, n, x⟩]
  | .logical _ l _ r => l.accesses ++ r.accesses
  | .call _ c args => c.accesses ++ Expr.accessesAll args

def Expr.accessesAll : List (Expr α) → List (Access α)
  | [] => []
  | e :: rest => e.accesses ++ Expr.accessesAll rest

end

/-- The accesses of an expression that may be absent. -/
def Expr.accesses? (e : Option (Expr α)) : List (Access α) := (e.map Expr.accesses).getD []

mutual

/-- The accesses of a statement in the order of its text. -/
def Stmt.accesses : Stmt α → List (Access α)
  | .expression _ e => e.accesses
  | .print _ e => e.accesses
  | .varDecl _ _ e => Expr.accesses? e
  | .block _ body => Program.accesses body
  | .ifElse _ c t none => c.accesses ++ t.accesses
  | .ifElse _ c t (some e) => c.accesses ++ t.accesses ++ e.accesses
  | .whileLoop _ c body => c.accesses ++ body.accesses
  | .funDecl _ _ _ body => Program.accesses body
  | .returnStmt _ e => Expr.accesses? e

def Program.accesses : Program α → List (Access α)
  | [] => []
  | s :: rest => s.accesses ++ Program.accesses rest

end

/-- The name that a declaration binds. -/
def Stmt.declared? : Stmt α → Option Name
  | .varDecl _ x _ => some x
  | .funDecl _ x _ _ => some x
  | _ => none

/-- The name that a function declaration binds. -/
def Stmt.declaredFunction? : Stmt α → Option Name
  | .funDecl _ x _ _ => some x
  | _ => none

/-- The names that the statements of a list declare directly, in order. -/
def Program.declared (p : Program α) : List Name := p.filterMap Stmt.declared?

end Lox
