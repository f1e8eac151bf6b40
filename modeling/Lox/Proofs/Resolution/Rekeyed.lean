import Lox.Proofs.Resolution.Parsed
import Lox.Proofs.Resolution.Split
import Lox.Proofs.Tree.Relabel

/-! Programs that differ in nothing but the keys of their nodes. The resolver finds the same in
both, and what its tables say of their accesses is the same. -/

namespace Lox

namespace Finding

/-- What is found where the node stands in the place of another one. -/
def map (f : Node → Node) : Finding → Finding
  | access n x depth => .access (f n) x depth
  | fault f location => .fault f location

variable {f : Node → Node}

/-- Diagnostics do not mention keys. -/
theorem diagnostic?_map (hf : ∀ n, (f n).location = n.location) (known : List Name)
    (reportUndefined : Bool) (finding : Finding) :
    (finding.map f).diagnostic? known reportUndefined =
      finding.diagnostic? known reportUndefined := by
  cases finding with
  | access n x depth => cases depth <;> simp [map, diagnostic?, hf]
  | fault => rfl

end Finding

namespace Scope

variable (f : Node → Node)

private theorem map_declareInner (x : Name) (l : Location) (scopes : List Scope) :
    (declareInner x l scopes).1.map (.map f) = (declareInner x l scopes).1 := by
  cases scopes with
  | nil => rfl
  | cons s outer =>
    rw [declareInner]
    dsimp only
    split <;> rfl

private theorem map_withParams (x : Name) (l : Location) (params : List Name) (s : Scope) :
    (withParams x l params s).1.map (.map f) = (withParams x l params s).1 := by
  induction params generalizing s with
  | nil => rfl
  | cons p rest ih =>
    simp only [withParams, List.map_append, ih]
    split <;> rfl

private theorem withFunctions_map (p : Program Node) (s : Scope) :
    s.withFunctions (Program.map f p) = s.withFunctions p := by
  rw [withFunctions, withFunctions, Program.functions_map]

end Scope

section Findings

mutual

theorem Expr.findings_map (f : Node → Node) (scopes : List Scope) : ∀ e : Expr Node,
    (e.map f).findings scopes = (e.findings scopes).map (.map f)
  | .binary _ l _ r | .logical _ l _ r => by
    simp only [map, findings, List.map_append, l.findings_map f scopes, r.findings_map f scopes]
  | .grouping _ e | .unary _ _ e => e.findings_map f scopes
  | .literal .. | .reference .. => rfl
  | .assign _ _ e => by
    simp only [map, findings, List.map_append, e.findings_map f scopes, List.map_cons,
      List.map_nil, Finding.map]
  | .call _ c args => by
    simp only [map, findings, List.map_append, c.findings_map f scopes,
      Expr.findingsAll_map f scopes args]

theorem Expr.findingsAll_map (f : Node → Node) (scopes : List Scope) : ∀ es : List (Expr Node),
    Expr.findingsAll scopes (Expr.mapAll f es) = (Expr.findingsAll scopes es).map (.map f)
  | [] => rfl
  | e :: rest => by
    simp only [Expr.mapAll, Expr.findingsAll, List.map_append, e.findings_map f scopes,
      Expr.findingsAll_map f scopes rest]

end

private theorem Expr.findings?_map (f : Node → Node) (scopes : List Scope)
    (e : Option (Expr Node)) :
    Expr.findings? scopes (e.map (·.map f)) = (Expr.findings? scopes e).map (.map f) := by
  cases e with
  | none => rfl
  | some e => exact e.findings_map f scopes

variable {f : Node → Node}

mutual

theorem Stmt.findings_map (hf : ∀ n, (f n).location = n.location) (b : Bool)
    (scopes : List Scope) : ∀ s : Stmt Node,
    (s.map f).findings b scopes = ((s.findings b scopes).1.map (.map f), (s.findings b scopes).2)
  | .expression _ e | .print _ e => by
    simp only [Stmt.map, Stmt.findings, e.findings_map f scopes]
  | .varDecl n x e => by
    simp only [Stmt.map, Stmt.findings, Expr.findings?_map f, List.map_append, hf,
      Scope.map_declareInner]
  | .block _ body => by
    simp only [Stmt.map, Stmt.findings, Scope.withFunctions_map, Program.findings_map hf b _ body]
  | .ifElse _ c t none => by
    simp only [Stmt.map, Stmt.findings, List.map_append, c.findings_map f scopes,
      t.findings_map hf b scopes]
  | .ifElse _ c t (some e) => by
    simp only [Stmt.map, Stmt.findings, List.map_append, c.findings_map f scopes,
      t.findings_map hf b scopes, e.findings_map hf b _]
  | .whileLoop _ c body => by
    simp only [Stmt.map, Stmt.findings, List.map_append, c.findings_map f scopes,
      body.findings_map hf b scopes]
  | .funDecl n x params body => by
    simp only [Stmt.map, Stmt.findings, List.map_append, hf, Scope.withFunctions_map,
      Scope.map_declareInner, Scope.map_withParams, Program.findings_map hf true _ body]
  | .returnStmt n e => by
    simp only [Stmt.map, Stmt.findings, List.map_append, Expr.findings?_map f, hf]
    cases b <;> rfl

theorem Program.findings_map (hf : ∀ n, (f n).location = n.location) (b : Bool)
    (scopes : List Scope) : ∀ p : Program Node,
    Program.findings b scopes (Program.map f p) =
      ((Program.findings b scopes p).1.map (.map f), (Program.findings b scopes p).2)
  | [] => rfl
  | s :: rest => by
    simp only [Program.map, Program.findings, s.findings_map hf b scopes,
      Program.findings_map hf b _ rest, List.map_append]

end

end Findings

section Twin

variable {t : Program Twin} {known : List Name} {reportUndefined : Bool}

theorem Program.twin_keys {a : Access Twin} (ha : a ∈ Program.accesses t) :
    a.note.key ∈ Program.keys (Program.map Twin.left t) ∧
      a.note.key' ∈ Program.keys (Program.map Twin.right t) := by
  have hmem (f : Twin → Node) : a.map f ∈ Program.accesses (Program.map f t) := by
    rw [Program.accesses_map]
    exact List.mem_map_of_mem ha
  exact ⟨Program.key_mem_keys (hmem Twin.left), Program.key_mem_keys (hmem Twin.right)⟩

/-- The diagnostics of a program do not depend on the keys of its nodes. -/
theorem resolve_twin (hkeys : (Program.keys (Program.map Twin.left t)).Nodup) :
    (resolve known reportUndefined (Program.map Twin.right t)).diagnostics =
      (resolve known reportUndefined (Program.map Twin.left t)).diagnostics := by
  obtain ⟨f, hf, hright⟩ := Program.exists_right_eq hkeys
  rw [hright, diagnostics_resolve, diagnostics_resolve, Program.findings_map hf,
    Program.declared_map, List.filterMap_map]
  exact List.filterMap_congr fun finding _ => finding.diagnostic?_map hf _ _

/-- The tables of both programs say the same of an access that has two keys. -/
theorem table_twin {known' : List Name} {reportUndefined' : Bool}
    (hkeys : (Program.keys (Program.map Twin.left t)).Nodup)
    (hkeys' : (Program.keys (Program.map Twin.right t)).Nodup) {a : Access Twin}
    (ha : a ∈ Program.accesses t) :
    (resolve known reportUndefined (Program.map Twin.left t)).table[a.note.key]? =
      (resolve known' reportUndefined' (Program.map Twin.right t)).table[a.note.key']? := by
  obtain ⟨f, hf, hright⟩ := Program.exists_right_eq hkeys
  have hnote : a.note.right = f a.note.left := by
    have haccesses := congrArg Program.accesses hright
    simp only [Program.accesses_map, List.map_map] at haccesses
    exact congrArg Access.note (List.map_inj_left.mp haccesses a ha)
  have hleft : a.map Twin.left ∈ Program.accesses (Program.map Twin.left t) := by
    rw [Program.accesses_map]
    exact List.mem_map_of_mem ha
  obtain ⟨d, hd⟩ := (Program.exists_access_finding false [] _).mpr ⟨_, hleft, rfl, rfl⟩
  have hd' : .access a.note.right a.name d ∈
      (Program.findings false [] (Program.map Twin.right t)).1 := by
    rw [hright, Program.findings_map hf, hnote]
    exact List.mem_map_of_mem hd
  exact (resolve_table_of_mem hkeys hd).trans (resolve_table_of_mem hkeys' hd').symm

end Twin

end Lox
