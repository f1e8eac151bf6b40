import Mathlib.Data.List.Basic
import Lox.Proofs.Resolution.Findings

/-! One resolver for many programs. From the programs before, only the names that they declare at
the top level count, whether they had errors or not; and which names are known decides on nothing
but the reports of undefined variables. -/

namespace Lox

def ScopeFault.isUndefined : ScopeFault → Bool
  | undefined _ => true
  | _ => false

namespace Resolved

/-- The diagnostics that are not on undefined variables. -/
def scopingDiagnostics (r : Resolved) : List Diagnostic :=
  r.diagnostics.filter (! ·.fault.isUndefined)

end Resolved

section

variable {known known' : List Name}

/-- Of the known names only the set counts. -/
theorem Finding.diagnostic?_congr (h : ∀ x, x ∈ known ↔ x ∈ known') (reportUndefined : Bool)
    (f : Finding) : f.diagnostic? known reportUndefined = f.diagnostic? known' reportUndefined := by
  cases f with
  | access n x d =>
    cases d with
    | some depth => rfl
    | none =>
      have hcontains : known.contains x = known'.contains x := by
        rw [Bool.eq_iff_iff, List.contains_iff_mem, List.contains_iff_mem, h x]
      simp only [diagnostic?, hcontains]
  | fault f l => rfl

private theorem resolve_congr (h : ∀ x, x ∈ known ↔ x ∈ known') (reportUndefined : Bool)
    (p : Program Node) : resolve known reportUndefined p = resolve known' reportUndefined p := by
  have hall (x : Name) : x ∈ known ++ p.declared ↔ x ∈ known' ++ p.declared := by
    rw [List.mem_append, List.mem_append, h x]
  rw [resolve_eq, resolve_eq, Resolved.mk.injEq]
  exact ⟨rfl, List.filterMap_congr fun f _ => f.diagnostic?_congr hall reportUndefined⟩

/-- What is known only decides on reports of undefined variables. -/
theorem Finding.filter_diagnostic? (known known' : List Name) (reportUndefined report' : Bool)
    (f : Finding) :
    (f.diagnostic? known reportUndefined).filter (! ·.fault.isUndefined) =
      (f.diagnostic? known' report').filter (! ·.fault.isUndefined) := by
  have hnone (known : List Name) (reportUndefined : Bool) (n : Node) (x : Name)
      (d : Option Nat) :
      ((access n x d).diagnostic? known reportUndefined).filter (! ·.fault.isUndefined) = none := by
    cases d with
    | some depth => rfl
    | none => simp [diagnostic?, ScopeFault.isUndefined]
  cases f with
  | access n x d => rw [hnone, hnone]
  | fault f l => rfl

private theorem resolve_scopingDiagnostics (known known' : List Name)
    (reportUndefined report' : Bool) (p : Program Node) :
    (resolve known reportUndefined p).scopingDiagnostics =
      (resolve known' report' p).scopingDiagnostics := by
  unfold Resolved.scopingDiagnostics
  rw [resolve_eq, resolve_eq, List.filter_filterMap, List.filter_filterMap]
  exact List.filterMap_congr fun f _ => f.filter_diagnostic? ..

/-- Where the accesses of a program are bound to does not depend on what is known and reported. -/
theorem table_resolve_eq (known known' : List Name) (reportUndefined report' : Bool)
    (p : Program Node) :
    (resolve known reportUndefined p).table = (resolve known' report' p).table := by
  rw [table_resolve, table_resolve]

end

namespace Resolver

@[simp] theorem known_resolve (r : Resolver) (p : Program Node) :
    (r.resolve p).2.known = r.known ++ p.declared := by
  rw [resolve_eq]
  rfl

@[simp] theorem reportUndefined_resolve (r : Resolver) (p : Program Node) :
    (r.resolve p).2.reportUndefined = r.reportUndefined := by
  rw [resolve_eq]
  rfl

/-- The results of one resolver for programs one after the other. -/
def resolveAll (r : Resolver) : List (Program Node) → List Resolved
  | [] => []
  | p :: rest => (r.resolve p).1 :: resolveAll (r.resolve p).2 rest

/-- Every program is resolved as if it were the first, with the names known that the programs before
it declare. -/
theorem getElem?_resolveAll (r : Resolver) (programs : List (Program Node)) (i : Nat) :
    (r.resolveAll programs)[i]? = programs[i]?.map
      (Lox.resolve (r.known ++ (programs.take i).flatMap Program.declared) r.reportUndefined) := by
  induction programs generalizing r i with
  | nil => rfl
  | cons p rest ih =>
    cases i with
    | zero => simp [resolveAll, fst_resolve]
    | succ i =>
      have hrest := ih (r.resolve p).2 i
      simpa [resolveAll] using hrest

/-- A resolver that has resolved other programs before, with errors or without, finds in a program
what a new one finds that knows also the names that these programs declare at the top level.
Whatever a resolver knows, reports and has resolved before, the table of a program is the same, and
so are the diagnostics that are not on undefined variables. -/
theorem resolveAll_reused (r : Resolver) {programs : List (Program Node)} {i : Nat}
    {p : Program Node} (hp : programs[i]? = some p) :
    (∀ known, (∀ x, x ∈ known ↔ x ∈ r.known ∨ ∃ q ∈ programs.take i, x ∈ q.declared) →
      (r.resolveAll programs)[i]? = some (Lox.resolve known r.reportUndefined p)) ∧
    ∀ (r' : Resolver) (programs' : List (Program Node)) (i' : Nat), programs'[i']? = some p →
      ∃ found found', (r.resolveAll programs)[i]? = some found ∧
        (r'.resolveAll programs')[i']? = some found' ∧ found.table = found'.table ∧
        found.scopingDiagnostics = found'.scopingDiagnostics := by
  constructor
  · intro known hknown
    rw [getElem?_resolveAll, hp, Option.map_some, Option.some_inj]
    refine resolve_congr (fun x => ?_) r.reportUndefined p
    rw [hknown, List.mem_append, List.mem_flatMap]
  · intro r' programs' i' hp'
    rw [getElem?_resolveAll, getElem?_resolveAll, hp, hp', Option.map_some, Option.map_some]
    exact ⟨_, _, rfl, rfl, table_resolve_eq .., resolve_scopingDiagnostics ..⟩

theorem resolveAll_reused_after_errors :
    let n : Node := ⟨0, .ofPosition ⟨1, 1⟩⟩
    let wrong : Program Node := [.varDecl n "x" none, .returnStmt n none]
    let p : Program Node := [.expression n (.reference n "x")]
    let r := Resolver.new ["clock"] true
    let other := Resolver.new [] false
    (Lox.resolve r.known true wrong).hasErrors = true ∧
      (r.resolveAll [wrong, p])[1]? = some (Lox.resolve ["x", "clock"] true p) ∧
      ∃ found found', (r.resolveAll [wrong, p])[1]? = some found ∧
        (other.resolveAll [p])[0]? = some found' ∧ found.table = found'.table ∧
        found.scopingDiagnostics = found'.scopingDiagnostics := by
  intro n wrong p r other
  obtain ⟨hfresh, hsame⟩ := resolveAll_reused r (show [wrong, p][1]? = some p from rfl)
  refine ⟨rfl, hfresh _ fun x => ?_, hsame other [p] 0 rfl⟩
  simp [r, Resolver.new, wrong, Program.declared, Stmt.declared?, or_comm, @eq_comm _ x]

end Resolver

end Lox
