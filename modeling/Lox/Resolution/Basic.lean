import Lox.Resolution.Diagnostic
import Lox.Resolution.Scope
import Lox.Tree.Basic
import Lox.Tree.Supply
import Std.Data.TreeMap

/-! Resolution: before a program runs, every access to a variable is bound to a local scope a fixed
number of steps out, or to the globals. The walk opens one scope for every block and one for every
function with its parameters and its body, as a run will do. -/

namespace Lox

/-- Where an access finds its variable. -/
inductive Resolution where
  /-- In the scope so many steps out from the one where the access stands. -/
  | atDepth (depth : Nat)
  | global
  deriving DecidableEq, Repr

abbrev ResolutionTable := Std.TreeMap Nat Resolution

/-- The entries of both tables; where both have a key, the second one counts. -/
def ResolutionTable.merge (table added : ResolutionTable) : ResolutionTable :=
  added.foldl (fun t key r => t.insert key r) table

structure Resolved where
  table : ResolutionTable
  diagnostics : List Diagnostic

namespace Resolved

def nothing : Resolved := ⟨∅, []⟩

def hasErrors (r : Resolved) : Bool := ! r.diagnostics.isEmpty

end Resolved

/-- A resolver serves many programs. It remembers the globals that they declare; what it has found
is of the last one, as far as the walk has come. -/
structure Resolver where
  known : List Name
  reportUndefined : Bool
  table : ResolutionTable
  diagnostics : List Diagnostic
  /-- How many functions are open around the place where the walk stands. -/
  functionDepth : Nat

namespace Resolver

def new (known : List Name) (reportUndefined : Bool) : Resolver :=
  ⟨known, reportUndefined, ∅, [], 0⟩

def report (r : Resolver) (fault : ScopeFault) (location : Location) : Resolver :=
  { r with diagnostics := r.diagnostics ++ [⟨fault, location⟩] }

def bind (r : Resolver) (n : Node) (resolution : Resolution) : Resolver :=
  { r with table := r.table.insert n.key resolution }

def access (r : Resolver) (scopes : List Scope) (n : Node) (x : Name) : Resolver :=
  match Scope.depth? x scopes with
  | some depth => r.bind n (.atDepth depth)
  | none =>
    let r := if r.reportUndefined && ! r.known.contains x then r.report (.undefined x) n.location
      else r
    r.bind n .global

/-- Declares a name in the innermost scope. A global may be declared again and again. -/
def declare (r : Resolver) (x : Name) (location : Location) :
    List Scope → List Scope × Resolver
  | [] => ([], r)
  | s :: outer =>
    let (allowed, s) := s.declare x
    (s :: outer, if allowed then r else r.report (.redeclared x) location)

def declareParams (r : Resolver) (function : Name) (location : Location) :
    List Name → Scope → Scope × Resolver
  | [], s => (s, r)
  | p :: rest, s =>
    let (allowed, s) := s.declare p
    let r := if allowed then r else r.report (.duplicateParameter p function) location
    r.declareParams function location rest (s.define p)

end Resolver

namespace Scope

def defineInner (x : Name) : List Scope → List Scope
  | [] => []
  | s :: outer => s.define x :: outer

def withFunctions (body : Program Node) (s : Scope) : Scope :=
  (body.filterMap Stmt.declaredFunction?).foldl (fun s x => s.hoist x) s

end Scope

mutual

def Expr.walk (scopes : List Scope) : Expr Node → Resolver → Resolver
  | .binary _ left _ right, r => right.walk scopes (left.walk scopes r)
  | .grouping _ e, r => e.walk scopes r
  | .literal .., r => r
  | .unary _ _ e, r => e.walk scopes r
  | .reference n x, r => r.access scopes n x
  | .assign n x e, r => (e.walk scopes r).access scopes n x
  | .logical _ left _ right, r => right.walk scopes (left.walk scopes r)
  | .call _ callee args, r => Expr.walkAll scopes args (callee.walk scopes r)

def Expr.walkAll (scopes : List Scope) : List (Expr Node) → Resolver → Resolver
  | [], r => r
  | e :: rest, r => Expr.walkAll scopes rest (e.walk scopes r)

end

def Expr.walk? (scopes : List Scope) : Option (Expr Node) → Resolver → Resolver
  | none, r => r
  | some e, r => e.walk scopes r

mutual

/-- Walks a statement. The innermost scope is left as the statement has changed it. -/
def Stmt.walk (scopes : List Scope) : Stmt Node → Resolver → List Scope × Resolver
  | .expression _ e, r => (scopes, e.walk scopes r)
  | .print _ e, r => (scopes, e.walk scopes r)
  | .varDecl n x e, r =>
    let (scopes, r) := r.declare x n.location scopes
    -- not defined yet, so that the initializer sees a variable further out
    let r := Expr.walk? scopes e r
    (Scope.defineInner x scopes, r)
  | .block _ body, r =>
    let inner := Scope.empty.withFunctions body
    (scopes, (Program.walk (inner :: scopes) body r).2)
  | .ifElse _ c t none, r => t.walk scopes (c.walk scopes r)
  | .ifElse _ c t (some e), r =>
    let (scopes, r) := t.walk scopes (c.walk scopes r)
    e.walk scopes r
  | .whileLoop _ c body, r => body.walk scopes (c.walk scopes r)
  | .funDecl n x params body, r =>
    let (scopes, r) := r.declare x n.location scopes
    let scopes := Scope.defineInner x scopes
    let (inner, r) := r.declareParams x n.location params .empty
    let r := { r with functionDepth := r.functionDepth + 1 }
    let (_, r) := Program.walk (inner.withFunctions body :: scopes) body r
    (scopes, { r with functionDepth := r.functionDepth - 1 })
  | .returnStmt n e, r =>
    let r := if r.functionDepth = 0 then r.report .topLevelReturn n.location else r
    (scopes, Expr.walk? scopes e r)

def Program.walk (scopes : List Scope) : Program Node → Resolver → List Scope × Resolver
  | [], r => (scopes, r)
  | s :: rest, r =>
    let (scopes, r) := s.walk scopes r
    Program.walk scopes rest r

end

/-- Resolves a program. Its own declarations are known from its first statement on, and stay known
for the programs that follow; nothing else is left of the program before. -/
def Resolver.resolve (r : Resolver) (program : Program Node) : Resolved × Resolver :=
  let r := { r with table := ∅, diagnostics := [], functionDepth := 0 }
  let r := { r with known := r.known ++ program.declared }
  let (_, r) := Program.walk [] program r
  (⟨r.table, r.diagnostics⟩, r)

def resolve (known : List Name) (reportUndefined : Bool) (program : Program Node) : Resolved :=
  ((Resolver.new known reportUndefined).resolve program).1

end Lox
