import Lox.Tree.Basic
import Lox.Tree.Supply

/-! Trees made of parts that have been checked and may lack a location. Every node is made after the
nodes that are its parts. -/

namespace Lox

/-- Where a node comes from that need not say so. -/
def Location.orUnknown (l : Option Location) : Location := l.getD .unknown

variable {σ ν : Type} [Supply σ Location ν]

def Location.note (l : Option Location) : StateM σ ν := Supply.draw (orUnknown l)

mutual

def Expr.load : Expr (Option Location) → StateM σ (Expr ν)
  | .binary l left op right => do
    let left ← left.load
    let right ← right.load
    return .binary (← Location.note l) left op right
  | .grouping l e => do
    let e ← e.load
    return .grouping (← Location.note l) e
  | .literal l v => return .literal (← Location.note l) v
  | .unary l op e => do
    let e ← e.load
    return .unary (← Location.note l) op e
  | .reference l x => return .reference (← Location.note l) x
  | .assign l x e => do
    let e ← e.load
    return .assign (← Location.note l) x e
  | .logical l left op right => do
    let left ← left.load
    let right ← right.load
    return .logical (← Location.note l) left op right
  | .call l callee args => do
    let callee ← callee.load
    let args ← Expr.loadAll args
    return .call (← Location.note l) callee args

def Expr.loadAll : List (Expr (Option Location)) → StateM σ (List (Expr ν))
  | [] => return []
  | e :: rest => do
    let e ← e.load
    return e :: (← Expr.loadAll rest)

end

def Expr.load? : Option (Expr (Option Location)) → StateM σ (Option (Expr ν))
  | none => return none
  | some e => return some (← e.load)

mutual

def Stmt.load : Stmt (Option Location) → StateM σ (Stmt ν)
  | .expression l e => do
    let e ← e.load
    return .expression (← Location.note l) e
  | .print l e => do
    let e ← e.load
    return .print (← Location.note l) e
  | .varDecl l x e => do
    let e ← Expr.load? e
    return .varDecl (← Location.note l) x e
  | .block l body => do
    let body ← Program.load body
    return .block (← Location.note l) body
  | .ifElse l c t none => do
    let c ← c.load
    let t ← t.load
    return .ifElse (← Location.note l) c t none
  | .ifElse l c t (some e) => do
    let c ← c.load
    let t ← t.load
    let e ← e.load
    return .ifElse (← Location.note l) c t (some e)
  | .whileLoop l c body => do
    let c ← c.load
    let body ← body.load
    return .whileLoop (← Location.note l) c body
  | .funDecl l x params body => do
    let body ← Program.load body
    return .funDecl (← Location.note l) x params body
  | .returnStmt l e => do
    let e ← Expr.load? e
    return .returnStmt (← Location.note l) e

def Program.load : Program (Option Location) → StateM σ (Program ν)
  | [] => return []
  | s :: rest => do
    let s ← s.load
    return s :: (← Program.load rest)

end

end Lox
