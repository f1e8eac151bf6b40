import Lox.Resolution.Basic

/-! What the walk of a resolver finds, as one stream. The stream depends on the program alone; the
table and the diagnostics are read off it, and what a resolver knows, reports and has found before
decides only on the reading. -/

namespace Lox

/-- What the walk finds, in its order. -/
inductive Finding where
  /-- An access, with the depth at which a local scope defines the name, if one does. -/
  | access (node : Node) (name : Name) (depth : Option Nat)
  | fault (fault : ScopeFault) (location : Location)
  deriving DecidableEq

mutual

/-- The findings in an expression inside the given scopes, innermost first. -/
def Expr.findings (scopes : List Scope) : Expr Node → List Finding
  | .binary _ l _ r => l.findings scopes ++ r.findings scopes
  | .grouping _ e => e.findings scopes
  | .literal .. => []
  | .unary _ _ e => e.findings scopes
  | .reference n x => [.access n x (Scope.depth? x scopes)]
  | .assign n x e => e.findings scopes ++ [.access n x (Scope.depth? x scopes)]
  | .logical _ l _ r => l.findings scopes ++ r.findings scopes
  | .call _ c args => c.findings scopes ++ Expr.findingsAll scopes args

def Expr.findingsAll (scopes : List Scope) : List (Expr Node) → List Finding
  | [] => []
  | e :: rest => e.findings scopes ++ Expr.findingsAll scopes rest

end

/-- The findings in an expression that may be absent. -/
def Expr.findings? (scopes : List Scope) (e : Option (Expr Node)) : List Finding :=
  (e.map (Expr.findings scopes)).getD []

namespace Scope

/-- What is found when a name is declared in the innermost scope, and the scopes afterwards. -/
def declareInner (x : Name) (location : Location) : List Scope → List Finding × List Scope
  | [] => ([], [])
  | s :: outer =>
    let (allowed, s) := s.declare x
    (if allowed then [] else [.fault (.redeclared x) location], s :: outer)

/-- What is found when the parameters of a function are added to a scope, and the scope then. -/
def withParams (function : Name) (location : Location) :
    List Name → Scope → List Finding × Scope
  | [], s => ([], s)
  | p :: rest, s =>
    let (allowed, s) := s.declare p
    let (findings, s) := withParams function location rest (s.define p)
    ((if allowed then [] else [.fault (.duplicateParameter p function) location]) ++ findings, s)

end Scope

mutual

/-- The findings in a statement, and the scopes as it leaves them. -/
def Stmt.findings (inFunction : Bool) (scopes : List Scope) :
    Stmt Node → List Finding × List Scope
  | .expression _ e => (e.findings scopes, scopes)
  | .print _ e => (e.findings scopes, scopes)
  | .varDecl n x e =>
    let (redeclared, scopes) := Scope.declareInner x n.location scopes
    (redeclared ++ Expr.findings? scopes e, Scope.defineInner x scopes)
  | .block _ body =>
    let inner := Scope.empty.withFunctions body
    ((Program.findings inFunction (inner :: scopes) body).1, scopes)
  | .ifElse _ c t none =>
    let (inThen, scopes') := t.findings inFunction scopes
    (c.findings scopes ++ inThen, scopes')
  | .ifElse _ c t (some e) =>
    let (inThen, scopes₁) := t.findings inFunction scopes
    let (inElse, scopes₂) := e.findings inFunction scopes₁
    (c.findings scopes ++ inThen ++ inElse, scopes₂)
  | .whileLoop _ c body =>
    let (inBody, scopes') := body.findings inFunction scopes
    (c.findings scopes ++ inBody, scopes')
  | .funDecl n x params body =>
    let (redeclared, scopes) := Scope.declareInner x n.location scopes
    let scopes := Scope.defineInner x scopes
    let (duplicates, inner) := Scope.empty.withParams x n.location params
    let inner := inner.withFunctions body
    (redeclared ++ duplicates ++ (Program.findings true (inner :: scopes) body).1, scopes)
  | .returnStmt n e =>
    ((if inFunction then [] else [.fault .topLevelReturn n.location]) ++ Expr.findings? scopes e,
      scopes)

/-- The findings in statements one after the other, and the scopes as they leave them. -/
def Program.findings (inFunction : Bool) (scopes : List Scope) :
    Program Node → List Finding × List Scope
  | [] => ([], scopes)
  | s :: rest =>
    let (first, scopes₁) := s.findings inFunction scopes
    let (others, scopes₂) := Program.findings inFunction scopes₁ rest
    (first ++ others, scopes₂)

end

namespace Finding

def resolution? : Finding → Option (Nat × Resolution)
  | access n _ (some depth) => some (n.key, .atDepth depth)
  | access n _ none => some (n.key, .global)
  | fault .. => none

/-- The diagnostic that a finding gives rise to where `known` are the names of the globals; accesses
to other globals are reported only if `reportUndefined` says so. -/
def diagnostic? (known : List Name) (reportUndefined : Bool) : Finding → Option Diagnostic
  | access _ _ (some _) => none
  | access n x none =>
    if reportUndefined && ! known.contains x then some ⟨.undefined x, n.location⟩ else none
  | fault f location => some ⟨f, location⟩

end Finding

def ResolutionTable.ofFindings (findings : List Finding) : ResolutionTable :=
  (findings.filterMap Finding.resolution?).foldl (fun t (key, r) => t.insert key r) ∅

namespace Resolver

variable {r : Resolver} {scopes : List Scope}

/-- The resolver after it has found so much more. -/
def take (r : Resolver) (findings : List Finding) : Resolver :=
  { r with
    table := (findings.filterMap Finding.resolution?).foldl (fun t (key, res) => t.insert key res)
      r.table
    diagnostics := r.diagnostics ++
      findings.filterMap (Finding.diagnostic? r.known r.reportUndefined) }

@[simp] theorem take_nil (r : Resolver) : r.take [] = r := by
  simp [take]

theorem take_append (r : Resolver) (findings others : List Finding) :
    r.take (findings ++ others) = (r.take findings).take others := by
  simp [take, List.foldl_append]

theorem report_eq_take (r : Resolver) (fault : ScopeFault) (location : Location) :
    r.report fault location = r.take [.fault fault location] := rfl

private theorem access_eq_take (r : Resolver) (scopes : List Scope) (n : Node) (x : Name) :
    r.access scopes n x = r.take [.access n x (Scope.depth? x scopes)] := by
  rw [access]
  cases Scope.depth? x scopes with
  | some depth => simp [take, bind, Finding.resolution?, Finding.diagnostic?]
  | none =>
    dsimp only
    split
    · rename_i hreports
      simp only [take, bind, report, List.filterMap_cons, List.filterMap_nil, Finding.resolution?,
        Finding.diagnostic?, if_pos hreports, List.foldl_cons, List.foldl_nil]
    · rename_i hreports
      simp only [take, bind, List.filterMap_cons, List.filterMap_nil, Finding.resolution?,
        Finding.diagnostic?, if_neg hreports, List.foldl_cons, List.foldl_nil, List.append_nil]

private theorem declare_eq_take (r : Resolver) (x : Name) (location : Location)
    (scopes : List Scope) : r.declare x location scopes = ((Scope.declareInner x location scopes).2,
      r.take (Scope.declareInner x location scopes).1) := by
  cases scopes with
  | nil => simp [declare, Scope.declareInner]
  | cons s outer =>
    rw [declare, Scope.declareInner]
    dsimp only
    split
    · rw [take_nil]
    · rw [report_eq_take]

private theorem declareParams_eq_take (r : Resolver) (f : Name) (location : Location)
    (params : List Name) (s : Scope) : r.declareParams f location params s =
      ((Scope.withParams f location params s).2,
        r.take (Scope.withParams f location params s).1) := by
  induction params generalizing r s with
  | nil => simp [declareParams, Scope.withParams]
  | cons p rest ih =>
    rw [declareParams, Scope.withParams]
    dsimp only
    rw [ih, take_append]
    split
    · rw [take_nil]
    · rw [report_eq_take]

end Resolver

section

variable (scopes : List Scope)

mutual

theorem Expr.walk_eq_take : ∀ (e : Expr Node) (r : Resolver),
    e.walk scopes r = r.take (e.findings scopes)
  | .binary _ left _ right, r | .logical _ left _ right, r => by
    rw [walk, findings, left.walk_eq_take, right.walk_eq_take, Resolver.take_append]
  | .grouping _ e, r | .unary _ _ e, r => e.walk_eq_take r
  | .literal .., r => r.take_nil.symm
  | .reference n x, r => r.access_eq_take scopes n x
  | .assign n x e, r => by
    rw [walk, findings, e.walk_eq_take, Resolver.access_eq_take, Resolver.take_append]
  | .call _ callee args, r => by
    rw [walk, findings, callee.walk_eq_take, Expr.walkAll_eq_take, Resolver.take_append]

theorem Expr.walkAll_eq_take : ∀ (es : List (Expr Node)) (r : Resolver),
    Expr.walkAll scopes es r = r.take (Expr.findingsAll scopes es)
  | [], r => r.take_nil.symm
  | e :: rest, r => by
    rw [Expr.walkAll, Expr.findingsAll, e.walk_eq_take, Expr.walkAll_eq_take, Resolver.take_append]

end

private theorem Expr.walk?_eq_take (e : Option (Expr Node)) (r : Resolver) :
    Expr.walk? scopes e r = r.take (Expr.findings? scopes e) := by
  cases e with
  | none => exact r.take_nil.symm
  | some e => exact e.walk_eq_take scopes r

end

mutual

/-- Whether the walk stands in a function is all that its depth decides. -/
theorem Stmt.walk_eq_take : ∀ (s : Stmt Node) (scopes : List Scope) (r : Resolver),
    s.walk scopes r = ((s.findings (decide (0 < r.functionDepth)) scopes).2,
      r.take (s.findings (decide (0 < r.functionDepth)) scopes).1)
  | .expression _ e, scopes, r | .print _ e, scopes, r => by
    rw [Stmt.walk, Stmt.findings, e.walk_eq_take]
  | .varDecl n x e, scopes, r => by
    simp only [Stmt.walk, Stmt.findings, Resolver.declare_eq_take, Expr.walk?_eq_take,
      Resolver.take_append]
  | .block _ body, scopes, r => by
    rw [Stmt.walk, Stmt.findings, Program.walk_eq_take]
  | .ifElse _ c t none, scopes, r => by
    simp only [Stmt.walk, Stmt.findings, c.walk_eq_take, t.walk_eq_take, Resolver.take_append]
    rfl
  | .ifElse _ c t (some e), scopes, r => by
    simp only [Stmt.walk, Stmt.findings, c.walk_eq_take, t.walk_eq_take, e.walk_eq_take,
      Resolver.take_append]
    rfl
  | .whileLoop _ c body, scopes, r => by
    simp only [Stmt.walk, Stmt.findings, c.walk_eq_take, body.walk_eq_take, Resolver.take_append]
    rfl
  | .funDecl n x params body, scopes, r => by
    simp only [Stmt.walk, Stmt.findings, Resolver.declare_eq_take, Resolver.declareParams_eq_take,
      Program.walk_eq_take, Resolver.take_append, Nat.zero_lt_succ, decide_true]
    rfl
  | .returnStmt n e, scopes, r => by
    rw [Stmt.walk, Stmt.findings, Expr.walk?_eq_take, Resolver.take_append]
    by_cases hdepth : r.functionDepth = 0
    · simp [hdepth, Resolver.report_eq_take]
    · simp [hdepth, Nat.pos_of_ne_zero]

theorem Program.walk_eq_take : ∀ (p : Program Node) (scopes : List Scope) (r : Resolver),
    Program.walk scopes p r = ((Program.findings (decide (0 < r.functionDepth)) scopes p).2,
      r.take (Program.findings (decide (0 < r.functionDepth)) scopes p).1)
  | [], scopes, r => by simp [Program.walk, Program.findings]
  | s :: rest, scopes, r => by
    simp only [Program.walk, Program.findings, s.walk_eq_take, Program.walk_eq_take rest,
      Resolver.take_append]
    rfl

end

/-- Of what a resolver has found before, nothing is left when it starts with a program. -/
theorem Resolver.resolve_eq (r : Resolver) (p : Program Node) :
    r.resolve p =
      (⟨.ofFindings (Program.findings false [] p).1, (Program.findings false [] p).1.filterMap
          (Finding.diagnostic? (r.known ++ p.declared) r.reportUndefined)⟩,
        (Resolver.new (r.known ++ p.declared) r.reportUndefined).take
          (Program.findings false [] p).1) := by
  rw [Resolver.resolve]
  dsimp only
  rw [Program.walk_eq_take]
  rfl

theorem resolve_eq (known : List Name) (reportUndefined : Bool) (p : Program Node) :
    resolve known reportUndefined p =
      ⟨.ofFindings (Program.findings false [] p).1, (Program.findings false [] p).1.filterMap
        (Finding.diagnostic? (known ++ p.declared) reportUndefined)⟩ := by
  rw [resolve, Resolver.resolve_eq]
  rfl

/-- A resolver that has resolved other programs does what a new one does that knows as much. -/
theorem Resolver.fst_resolve (r : Resolver) (p : Program Node) :
    (r.resolve p).1 = Lox.resolve r.known r.reportUndefined p := by
  rw [resolve_eq, Lox.resolve_eq]

theorem table_resolve (known : List Name) (reportUndefined : Bool) (p : Program Node) :
    (resolve known reportUndefined p).table = .ofFindings (Program.findings false [] p).1 := by
  rw [resolve_eq]

theorem diagnostics_resolve (known : List Name) (reportUndefined : Bool) (p : Program Node) :
    (resolve known reportUndefined p).diagnostics = (Program.findings false [] p).1.filterMap
      (Finding.diagnostic? (known ++ p.declared) reportUndefined) := by
  rw [resolve_eq]

end Lox
