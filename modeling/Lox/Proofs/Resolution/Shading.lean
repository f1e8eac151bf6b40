import Lox.Proofs.Resolution.Clean
import Lox.Proofs.Resolution.Parsed
import Lox.Proofs.Resolution.Split
import Lox.Proofs.Tree.Relabel

/-! Programs with a further variable. A declaration that is added to a block or function body behind
all uses of its name shades no name from them: the resolver reports the same as before and binds
every access to the same scope. -/

namespace Lox

open Supply (bind_apply pure_apply)

/-- Two tables of resolutions, the second one for a program that declares a further variable of the
given name in some of its scopes. These scopes are called shaded. -/
structure Shading where
  name : Name
  table : ResolutionTable
  table' : ResolutionTable

namespace Shading

variable (g : Shading)

/-- Both tables bind the access to the same scope, which is not one where its name is shaded. -/
structure Access (shades : List Bool) (x : Name) (n n' : Node) : Prop where
  location : n.location = n'.location
  entry : ∃ d, g.table[n.key]? = some (.ofDepth d) ∧ g.table'[n'.key]? = some (.ofDepth d) ∧
    (x = g.name → ∀ i, d = some i → shades[i]? ≠ some true)

/-- The same expression in both programs, inside scopes of which the list tells which are shaded. -/
inductive ExprAlike (shades : List Bool) : Expr Node → Expr Node → Prop where
  | binary {n n' l l' op r r'} : n.location = n'.location → ExprAlike shades l l' →
      ExprAlike shades r r' → ExprAlike shades (.binary n l op r) (.binary n' l' op r')
  | grouping {n n' e e'} : ExprAlike shades e e' →
      ExprAlike shades (.grouping n e) (.grouping n' e')
  | literal {n n' v} : ExprAlike shades (.literal n v) (.literal n' v)
  | unary {n n' op e e'} : n.location = n'.location → ExprAlike shades e e' →
      ExprAlike shades (.unary n op e) (.unary n' op e')
  | reference {n n' x} : g.Access shades x n n' →
      ExprAlike shades (.reference n x) (.reference n' x)
  | assign {n n' x e e'} : g.Access shades x n n' → ExprAlike shades e e' →
      ExprAlike shades (.assign n x e) (.assign n' x e')
  | logical {n n' l l' op r r'} : ExprAlike shades l l' → ExprAlike shades r r' →
      ExprAlike shades (.logical n l op r) (.logical n' l' op r')
  | call {n n' c c' args args'} : n.location = n'.location → ExprAlike shades c c' →
      List.Forall₂ (ExprAlike shades) args args' →
      ExprAlike shades (.call n c args) (.call n' c' args')

mutual

/-- The same statement in both programs, up to declarations that are added inside it. -/
inductive StmtAlike : List Bool → Stmt Node → Stmt Node → Prop where
  | expression {shades n n' e e'} : g.ExprAlike shades e e' →
      StmtAlike shades (.expression n e) (.expression n' e')
  | print {shades n n' e e'} : g.ExprAlike shades e e' →
      StmtAlike shades (.print n e) (.print n' e')
  | varDecl {shades n n' x e e'} : Option.Rel (g.ExprAlike shades) e e' →
      StmtAlike shades (.varDecl n x e) (.varDecl n' x e')
  | block {shades n n' shaded body body'} : ProgramAlike (shaded :: shades) body body' →
      StmtAlike shades (.block n body) (.block n' body')
  | ifOnly {shades n n' c c' t t'} : g.ExprAlike shades c c' → StmtAlike shades t t' →
      StmtAlike shades (.ifElse n c t none) (.ifElse n' c' t' none)
  | ifElse {shades n n' c c' t t' e e'} : g.ExprAlike shades c c' → StmtAlike shades t t' →
      StmtAlike shades e e' → StmtAlike shades (.ifElse n c t (some e)) (.ifElse n' c' t' (some e'))
  | whileLoop {shades n n' c c' body body'} : g.ExprAlike shades c c' →
      StmtAlike shades body body' → StmtAlike shades (.whileLoop n c body) (.whileLoop n' c' body')
  | funDecl {shades n n' x params shaded body body'} : ProgramAlike (shaded :: shades) body body' →
      StmtAlike shades (.funDecl n x params body) (.funDecl n' x params body')
  | returnStmt {shades n n' e e'} : Option.Rel (g.ExprAlike shades) e e' →
      StmtAlike shades (.returnStmt n e) (.returnStmt n' e')

/-- The same statements in both programs, up to declarations in shaded scopes. -/
inductive ProgramAlike : List Bool → Program Node → Program Node → Prop where
  | nil {shades} : ProgramAlike shades [] []
  | cons {shades s s' rest rest'} : StmtAlike shades s s' → ProgramAlike shades rest rest' →
      ProgramAlike shades (s :: rest) (s' :: rest')
  | insert {shades n m v p p'} : ProgramAlike (true :: shades) p p' →
      ProgramAlike (true :: shades) p (.varDecl n g.name (some (.literal m v)) :: p')

end

end Shading

section

variable {α : Type}

/-- A variable of the name is declared at one position in the body of a block or function, behind
which the body does not use the name. The body does not declare the name, and neither is it one of
the given parameters. -/
def Program.Inserted (x : Name) (params : List Name) (body body' : Program α) : Prop :=
  ∃ before after n m v, body = before ++ after ∧
    body' = before ++ .varDecl n x (some (.literal m v)) :: after ∧ x ∉ params ∧
    x ∉ Program.declared body ∧ ∀ a ∈ Program.accesses after, a.name ≠ x

/-- Such a declaration is added to one of the blocks and function bodies of a program. -/
inductive Program.Shadowed (x : Name) : Program α → Program α → Prop where
  | inBlock {n body body' rest} : Program.Inserted x [] body body' →
      Shadowed x (.block n body :: rest) (.block n body' :: rest)
  | inFunction {n f params body body' rest} : Program.Inserted x params body body' →
      Shadowed x (.funDecl n f params body :: rest) (.funDecl n f params body' :: rest)
  | block {n body body' rest} : Shadowed x body body' →
      Shadowed x (.block n body :: rest) (.block n body' :: rest)
  | function {n f params body body' rest} : Shadowed x body body' →
      Shadowed x (.funDecl n f params body :: rest) (.funDecl n f params body' :: rest)
  | ifOnly {n c t t' rest} : Shadowed x [t] [t'] →
      Shadowed x (.ifElse n c t none :: rest) (.ifElse n c t' none :: rest)
  | thenBranch {n c t t' e rest} : Shadowed x [t] [t'] →
      Shadowed x (.ifElse n c t (some e) :: rest) (.ifElse n c t' (some e) :: rest)
  | elseBranch {n c t e e' rest} : Shadowed x [e] [e'] →
      Shadowed x (.ifElse n c t (some e) :: rest) (.ifElse n c t (some e') :: rest)
  | loop {n c body body' rest} : Shadowed x [body] [body'] →
      Shadowed x (.whileLoop n c body :: rest) (.whileLoop n c body' :: rest)
  | later {s rest rest'} : Shadowed x rest rest' → Shadowed x (s :: rest) (s :: rest')

variable {β : Type} (f : α → β) {x : Name}

theorem Program.Inserted.map {params : List Name} {body body' : Program α}
    (h : Program.Inserted x params body body') :
    Program.Inserted x params (Program.map f body) (Program.map f body') := by
  obtain ⟨before, after, n, m, v, rfl, rfl, hparams, hdeclared, hafter⟩ := h
  refine ⟨Program.map f before, Program.map f after, f n, f m, v, Program.map_append f _ _,
    Program.map_append f _ _, hparams, by rwa [Program.declared_map], fun a ha => ?_⟩
  rw [Program.accesses_map] at ha
  obtain ⟨b, hb, rfl⟩ := List.mem_map.mp ha
  exact hafter b hb

theorem Program.Shadowed.map {p p' : Program α} (h : Program.Shadowed x p p') :
    Program.Shadowed x (Program.map f p) (Program.map f p') := by
  induction h with
  | inBlock h => exact .inBlock (h.map f)
  | inFunction h => exact .inFunction (h.map f)
  | block _ ih => exact .block ih
  | function _ ih => exact .function ih
  | ifOnly _ ih => exact .ifOnly ih
  | thenBranch _ ih => exact .thenBranch ih
  | elseBranch _ ih => exact .elseBranch ih
  | loop _ ih => exact .loop ih
  | later _ ih => exact .later ih

end

/-- What the resolver finds, whatever the keys of the nodes. -/
def Finding.unkeyed : Finding → Finding
  | access n x d => .access ⟨0, n.location⟩ x d
  | fault f l => .fault f l

private theorem Finding.diagnostic?_unkeyed (known : List Name) (reportUndefined : Bool)
    (f : Finding) :
    f.unkeyed.diagnostic? known reportUndefined = f.diagnostic? known reportUndefined := by
  cases f with
  | access n x d => cases d <;> rfl
  | fault f l => rfl

private theorem resolve_diagnostics_congr {p p' : Program Node}
    (hdeclared : p.declared = p'.declared)
    (h : (Program.findings false [] p).1.map Finding.unkeyed =
      (Program.findings false [] p').1.map Finding.unkeyed)
    (known : List Name) (reportUndefined : Bool) :
    (resolve known reportUndefined p).diagnostics =
      (resolve known reportUndefined p').diagnostics := by
  have hreported (known : List Name) (findings : List Finding) :
      findings.filterMap (Finding.diagnostic? known reportUndefined) =
        (findings.map Finding.unkeyed).filterMap (Finding.diagnostic? known reportUndefined) := by
    rw [List.filterMap_map]
    exact List.filterMap_congr fun f _ => (f.diagnostic?_unkeyed known reportUndefined).symm
  rw [diagnostics_resolve, diagnostics_resolve, hreported,
    hreported _ (Program.findings false [] p').1, h, hdeclared]

/-- The table has what has been found. -/
def ResolutionTable.Binds (table : ResolutionTable) (findings : List Finding) : Prop :=
  ∀ n x d, .access n x d ∈ findings → table[n.key]? = some (.ofDepth d)

theorem ResolutionTable.binds_append {table : ResolutionTable} {findings others : List Finding} :
    table.Binds (findings ++ others) ↔ table.Binds findings ∧ table.Binds others := by
  simp only [Binds, List.mem_append, or_imp, forall_and]

private theorem resolve_binds {p : Program Node} (hkeys : (Program.keys p).Nodup)
    (known : List Name) (reportUndefined : Bool) :
    (resolve known reportUndefined p).table.Binds (Program.findings false [] p).1 :=
  fun _ _ _ hfound => resolve_table_of_mem hkeys hfound

/-- Two lists of scopes that know the same, up to the name in the shaded ones. -/
inductive Scope.Near (x : Name) : List Bool → List Scope → List Scope → Prop where
  | nil : Near x [] [] []
  | plain {shades s scopes scopes'} : Near x shades scopes scopes' →
      Near x (false :: shades) (s :: scopes) (s :: scopes')
  | shaded {shades s s' scopes scopes'} : s.state? x = none → x ∉ s.hoisted →
      s.hoisted = s'.hoisted → (∀ y, y ≠ x → s.state? y = s'.state? y) →
      Near x shades scopes scopes' → Near x (true :: shades) (s :: scopes) (s' :: scopes')

/-- A name that both lists define in the same scope, and not in a shaded one if it is the given
one. -/
def Scope.Sees (x : Name) (shades : List Bool) (scopes scopes' : List Scope) (y : Name) : Prop :=
  depth? y scopes = depth? y scopes' ∧
    (y = x → ∀ i, depth? y scopes = some i → shades[i]? ≠ some true)

namespace Scope.Near

variable {x y : Name} {shades : List Bool} {scopes scopes' : List Scope}

private theorem depth?_eq (h : Near x shades scopes scopes') (hy : y ≠ x) :
    depth? y scopes = depth? y scopes' := by
  induction h with
  | nil => rfl
  | plain _ ih => rw [depth?, depth?, ih]
  | shaded _ _ _ hstate _ ih => rw [depth?, depth?, hstate y hy, ih]

private theorem not_shaded (h : Near x shades scopes scopes') {i : Nat}
    (hi : depth? x scopes = some i) : shades[i]? ≠ some true := by
  induction h generalizing i with
  | nil => cases hi
  | @plain shades s _ _ _ ih =>
    rw [depth?] at hi
    split at hi
    · cases hi
      simp
    · obtain ⟨j, hj, rfl⟩ := Option.map_eq_some_iff.mp hi
      exact ih hj
  | @shaded shades s _ _ _ hnone _ _ _ _ ih =>
    rw [depth?, if_neg (by simp [hnone])] at hi
    obtain ⟨j, hj, rfl⟩ := Option.map_eq_some_iff.mp hi
    exact ih hj

theorem sees (h : Near x shades scopes scopes') (hy : y = x → scopes = scopes') :
    Sees x shades scopes scopes' y := by
  by_cases hyx : y = x
  · refine ⟨by rw [hy hyx], fun _ i hi => ?_⟩
    rw [hyx] at hi
    exact h.not_shaded hi
  · exact ⟨h.depth?_eq hyx, fun heq => absurd heq hyx⟩

theorem declare (h : Near x shades scopes scopes') (hy : shades.head? = some true → y ≠ x)
    (l : Location) : (declareInner y l scopes).1 = (declareInner y l scopes').1 ∧
      Near x shades (declareInner y l scopes).2 (declareInner y l scopes').2 := by
  cases h with
  | nil => exact ⟨rfl, .nil⟩
  | plain h => exact ⟨rfl, .plain h⟩
  | @shaded shades s s' _ _ hnone hhoisted heq hstate h =>
    have hyx : y ≠ x := hy rfl
    have hallowed : (s.declare y).1 = (s'.declare y).1 := by
      rw [declare_fst, declare_fst, heq, hstate y hyx]
    have hnone' : (s.declare y).2.state? x = none := by
      rw [state?_declare, if_neg fun hxy => hyx hxy.1.symm, hnone]
    have hhoisted' : x ∉ (s.declare y).2.hoisted :=
      fun hmem => hhoisted ((hoisted_declare_subset s y).subset hmem)
    have heq' : (s.declare y).2.hoisted = (s'.declare y).2.hoisted := by
      rw [Scope.declare, Scope.declare, heq, hstate y hyx]
      split
      · rfl
      · split <;> simp [heq]
    have hstate' (z : Name) (hz : z ≠ x) :
        (s.declare y).2.state? z = (s'.declare y).2.state? z := by
      rw [state?_declare, state?_declare, heq, hstate y hyx, hstate z hz]
    exact ⟨by simp only [declareInner, hallowed], .shaded hnone' hhoisted' heq' hstate' h⟩

theorem define (h : Near x shades scopes scopes') (hy : shades.head? = some true → y ≠ x) :
    Near x shades (defineInner y scopes) (defineInner y scopes') := by
  cases h with
  | nil => exact .nil
  | plain h => exact .plain h
  | shaded hnone hhoisted heq hstate h =>
    refine .shaded ?_ hhoisted heq (fun z hz => ?_) h
    · rw [state?_define, if_neg fun hxy => hy rfl hxy.symm, hnone]
    · rw [state?_define, state?_define, hstate z hz]

end Scope.Near

/-- The scopes behind a statement that declares the name, if it declares one. -/
def Scope.behind (declared : Option Name) (scopes : List Scope) : List Scope :=
  match declared with
  | none => scopes
  | some y => defineInner y (declareInner y .unknown scopes).2

private theorem Stmt.findings_behind {s : Stmt Node} (hs : s.Scoped) (b : Bool)
    (scopes : List Scope) : (s.findings b scopes).2 = Scope.behind s.declared? scopes := by
  cases hd : s.declared? with
  | none => exact s.findings_of_not_declaration b scopes hs hd
  | some y =>
    rw [s.findings_of_declaration hd]
    cases scopes <;> rfl

theorem Scope.Near.behind {x : Name} {shades : List Bool} {scopes scopes' : List Scope}
    (h : Scope.Near x shades scopes scopes') {d : Option Name}
    (hd : shades.head? = some true → d ≠ some x) :
    Scope.Near x shades (Scope.behind d scopes) (Scope.behind d scopes') := by
  cases d with
  | none => exact h
  | some y =>
    have hy : shades.head? = some true → y ≠ x := fun hhead heq => hd hhead (congrArg some heq)
    exact (h.declare hy _).2.define hy

section

variable {g : Shading} {shades : List Bool} {scopes scopes' : List Scope}

mutual

theorem Expr.unkeyed_findings (ks ks' : List Nat) : ∀ e : Expr (Option Location),
    (∀ a ∈ e.accesses, Scope.Sees g.name shades scopes scopes' a.name) →
    ((e.load ks).1.findings scopes).map Finding.unkeyed =
      ((e.load ks').1.findings scopes').map Finding.unkeyed
  | .binary _ l _ r, h | .logical _ l _ r, h => by
    obtain ⟨hl, hr⟩ := List.forall_mem_append.mp h
    simp only [Expr.load, bind_apply, pure_apply, findings, List.map_append]
    exact congrArg₂ _ (l.unkeyed_findings _ _ hl) (r.unkeyed_findings _ _ hr)
  | .grouping _ e, h | .unary _ _ e, h => e.unkeyed_findings _ _ h
  | .literal .., _ => rfl
  | .reference n x, h => by
    have hx := (h _ List.mem_cons_self).1
    simp only at hx
    simp [Expr.load, bind_apply, pure_apply, Location.note_list, findings, Finding.unkeyed, hx]
  | .assign n x e, h => by
    obtain ⟨he, hx⟩ := List.forall_mem_append.mp h
    have hx := (hx _ List.mem_cons_self).1
    simp only at hx
    simp only [Expr.load, bind_apply, pure_apply, findings, List.map_append, hx]
    exact congrArg₂ _ (e.unkeyed_findings _ _ he) rfl
  | .call _ c args, h => by
    obtain ⟨hc, hargs⟩ := List.forall_mem_append.mp h
    simp only [Expr.load, bind_apply, pure_apply, findings, List.map_append]
    exact congrArg₂ _ (c.unkeyed_findings _ _ hc) (Expr.unkeyed_findingsAll _ _ args hargs)

theorem Expr.unkeyed_findingsAll (ks ks' : List Nat) : ∀ es : List (Expr (Option Location)),
    (∀ a ∈ Expr.accessesAll es, Scope.Sees g.name shades scopes scopes' a.name) →
    (Expr.findingsAll scopes (Expr.loadAll es ks).1).map Finding.unkeyed =
      (Expr.findingsAll scopes' (Expr.loadAll es ks').1).map Finding.unkeyed
  | [], _ => rfl
  | e :: rest, h => by
    obtain ⟨he, hrest⟩ := List.forall_mem_append.mp h
    simp only [Expr.loadAll, bind_apply, pure_apply, Expr.findingsAll, List.map_append]
    exact congrArg₂ _ (e.unkeyed_findings _ _ he) (Expr.unkeyed_findingsAll _ _ rest hrest)

end

private theorem Shading.access_of_binds {n : Location} {x : Name} {k k' : Nat}
    (hx : Scope.Sees g.name shades scopes scopes' x)
    (h : g.table.Binds [.access ⟨k, n⟩ x (Scope.depth? x scopes)])
    (h' : g.table'.Binds [.access ⟨k', n⟩ x (Scope.depth? x scopes')]) :
    g.Access shades x ⟨k, n⟩ ⟨k', n⟩ := by
  refine ⟨rfl, _, h _ _ _ List.mem_cons_self, ?_, hx.2⟩
  rw [hx.1]
  exact h' _ _ _ List.mem_cons_self

mutual

theorem Expr.alike (ks ks' : List Nat) : ∀ e : Expr (Option Location),
    (∀ a ∈ e.accesses, Scope.Sees g.name shades scopes scopes' a.name) →
    g.table.Binds ((e.load ks).1.findings scopes) →
    g.table'.Binds ((e.load ks').1.findings scopes') →
    g.ExprAlike shades (e.load ks).1 (e.load ks').1
  | .binary _ l _ r, hs, h, h' => by
    obtain ⟨hsl, hsr⟩ := List.forall_mem_append.mp hs
    obtain ⟨hl, hr⟩ := ResolutionTable.binds_append.mp h
    obtain ⟨hl', hr'⟩ := ResolutionTable.binds_append.mp h'
    exact .binary rfl (l.alike _ _ hsl hl hl') (r.alike _ _ hsr hr hr')
  | .logical _ l _ r, hs, h, h' => by
    obtain ⟨hsl, hsr⟩ := List.forall_mem_append.mp hs
    obtain ⟨hl, hr⟩ := ResolutionTable.binds_append.mp h
    obtain ⟨hl', hr'⟩ := ResolutionTable.binds_append.mp h'
    exact .logical (l.alike _ _ hsl hl hl') (r.alike _ _ hsr hr hr')
  | .grouping _ e, hs, h, h' => .grouping (e.alike _ _ hs h h')
  | .literal .., _, _, _ => .literal
  | .unary _ _ e, hs, h, h' => .unary rfl (e.alike _ _ hs h h')
  | .reference n x, hs, h, h' =>
    .reference (Shading.access_of_binds (hs _ List.mem_cons_self) h h')
  | .assign n x e, hs, h, h' => by
    obtain ⟨hse, hsx⟩ := List.forall_mem_append.mp hs
    obtain ⟨he, hx⟩ := ResolutionTable.binds_append.mp h
    obtain ⟨he', hx'⟩ := ResolutionTable.binds_append.mp h'
    exact .assign (Shading.access_of_binds (hsx _ List.mem_cons_self) hx hx')
      (e.alike _ _ hse he he')
  | .call _ c args, hs, h, h' => by
    obtain ⟨hsc, hsargs⟩ := List.forall_mem_append.mp hs
    obtain ⟨hc, hargs⟩ := ResolutionTable.binds_append.mp h
    obtain ⟨hc', hargs'⟩ := ResolutionTable.binds_append.mp h'
    exact .call rfl (c.alike _ _ hsc hc hc') (Expr.alikeAll _ _ args hsargs hargs hargs')

theorem Expr.alikeAll (ks ks' : List Nat) : ∀ es : List (Expr (Option Location)),
    (∀ a ∈ Expr.accessesAll es, Scope.Sees g.name shades scopes scopes' a.name) →
    g.table.Binds (Expr.findingsAll scopes (Expr.loadAll es ks).1) →
    g.table'.Binds (Expr.findingsAll scopes' (Expr.loadAll es ks').1) →
    List.Forall₂ (g.ExprAlike shades) (Expr.loadAll es ks).1 (Expr.loadAll es ks').1
  | [], _, _, _ => .nil
  | e :: rest, hs, h, h' => by
    obtain ⟨hse, hsrest⟩ := List.forall_mem_append.mp hs
    obtain ⟨he, hrest⟩ := ResolutionTable.binds_append.mp h
    obtain ⟨he', hrest'⟩ := ResolutionTable.binds_append.mp h'
    exact .cons (e.alike _ _ hse he he') (Expr.alikeAll _ _ rest hsrest hrest hrest')

end

private theorem Expr.unkeyed_findings? (ks ks' : List Nat) (e : Option (Expr (Option Location)))
    (h : ∀ a ∈ Expr.accesses? e, Scope.Sees g.name shades scopes scopes' a.name) :
    (Expr.findings? scopes (Expr.load? e ks).1).map Finding.unkeyed =
      (Expr.findings? scopes' (Expr.load? e ks').1).map Finding.unkeyed := by
  cases e with
  | none => rfl
  | some e => exact e.unkeyed_findings ks ks' h

private theorem Expr.alike? (ks ks' : List Nat) (e : Option (Expr (Option Location)))
    (hs : ∀ a ∈ Expr.accesses? e, Scope.Sees g.name shades scopes scopes' a.name)
    (h : g.table.Binds (Expr.findings? scopes (Expr.load? e ks).1))
    (h' : g.table'.Binds (Expr.findings? scopes' (Expr.load? e ks').1)) :
    Option.Rel (g.ExprAlike shades) (Expr.load? e ks).1 (Expr.load? e ks').1 := by
  cases e with
  | none => exact .none
  | some e => exact .some (e.alike ks ks' hs h h')

end

section Load

variable (ks ks' : List Nat)

private theorem Stmt.declared?_load (s : Stmt (Option Location)) :
    (s.load ks).1.declared? = s.declared? := by
  rw [← Stmt.declared?_map Keyed.location, ← s.declared?_map Location.orUnknown]
  exact congrArg Stmt.declared? (s.map_load ks)

private theorem Program.declared_load (p : Program (Option Location)) :
    Program.declared (Program.load p ks).1 = Program.declared p := by
  rw [← Program.declared_map Keyed.location, ← Program.declared_map Location.orUnknown p]
  exact congrArg Program.declared (Program.map_load ks p)

theorem Program.functions_load (p : Program (Option Location)) :
    (Program.load p ks).1.filterMap Stmt.declaredFunction? =
      p.filterMap Stmt.declaredFunction? := by
  rw [← Program.functions_map Keyed.location, ← Program.functions_map Location.orUnknown p]
  exact congrArg (List.filterMap Stmt.declaredFunction?) (Program.map_load ks p)

theorem Scope.withFunctions_load (p : Program (Option Location)) (s : Scope) :
    s.withFunctions (Program.load p ks).1 = s.withFunctions (Program.load p ks').1 := by
  rw [withFunctions, withFunctions, Program.functions_load, Program.functions_load]

theorem Stmt.findings_load_behind {s : Stmt (Option Location)} (hs : s.Scoped) (b : Bool)
    (scopes : List Scope) :
    ((s.load ks).1.findings b scopes).2 = Scope.behind s.declared? scopes := by
  have hscoped : (s.load ks).1.Scoped := by
    rw [← Stmt.scoped_map Keyed.location]
    exact (s.map_load ks).symm ▸ (s.scoped_map Location.orUnknown).mpr hs
  rw [Stmt.findings_behind hscoped, s.declared?_load]

end Load

section

variable {g : Shading}

mutual

/-- With any keys a statement gives the same findings in scopes that are near each other. -/
theorem Stmt.unkeyed_findings (ks ks' : List Nat) (b : Bool) {shades : List Bool}
    {scopes scopes' : List Scope} (hnear : Scope.Near g.name shades scopes scopes') :
    ∀ s : Stmt (Option Location), s.Scoped →
      (shades.head? = some true → s.declared? ≠ some g.name) →
    (∀ a ∈ s.accesses, a.name = g.name → scopes = scopes') →
    ((s.load ks).1.findings b scopes).1.map Finding.unkeyed =
      ((s.load ks').1.findings b scopes').1.map Finding.unkeyed
  | .expression _ e, _, _, hx | .print _ e, _, _, hx =>
    e.unkeyed_findings _ _ fun a ha => hnear.sees (hx a ha)
  | .varDecl n y e, _, hd, hx => by
    have hy : shades.head? = some true → y ≠ g.name := fun h heq => hd h (congrArg some heq)
    obtain ⟨hfaults, hnear'⟩ := hnear.declare hy (Location.orUnknown n)
    simp only [Stmt.load, bind_apply, pure_apply, Location.note_list,
      Stmt.findings, List.map_append, hfaults]
    refine congrArg₂ _ rfl (Expr.unkeyed_findings? _ _ e fun a ha => hnear'.sees fun heq => ?_)
    rw [hx a ha heq]
  | .block n body, hs, _, hx => by
    simp only [Stmt.load, bind_apply, pure_apply, Stmt.findings]
    rw [Scope.withFunctions_load ks ks']
    refine Program.unkeyed_findings _ _ b (.plain hnear) body hs (by simp) fun a ha heq => ?_
    rw [hx a ha heq]
  | .ifElse n c t none, hs, _, hx => by
    obtain ⟨hxc, hxt⟩ := List.forall_mem_append.mp hx
    have hd : shades.head? = some true → t.declared? ≠ some g.name := by simp [hs.1]
    simp only [Stmt.load, bind_apply, pure_apply, Stmt.findings, List.map_append]
    exact congrArg₂ _ (c.unkeyed_findings _ _ fun a ha => hnear.sees (hxc a ha))
      (t.unkeyed_findings _ _ b hnear hs.2 hd hxt)
  | .ifElse n c t (some e), hs, _, hx => by
    obtain ⟨hxct, hxe⟩ := List.forall_mem_append.mp hx
    obtain ⟨hxc, hxt⟩ := List.forall_mem_append.mp hxct
    have hdt : shades.head? = some true → t.declared? ≠ some g.name := by simp [hs.1.1]
    have hde : shades.head? = some true → e.declared? ≠ some g.name := by simp [hs.2.1]
    have hbehind (ks : List Nat) (scopes : List Scope) :
        ((t.load ks).1.findings b scopes).2 = scopes := by
      rw [Stmt.findings_load_behind _ hs.1.2, hs.1.1]
      rfl
    simp only [Stmt.load, bind_apply, pure_apply, Stmt.findings, List.map_append, hbehind]
    exact congrArg₂ _ (congrArg₂ _ (c.unkeyed_findings _ _ fun a ha => hnear.sees (hxc a ha))
      (t.unkeyed_findings _ _ b hnear hs.1.2 hdt hxt))
      (e.unkeyed_findings _ _ b hnear hs.2.2 hde hxe)
  | .whileLoop n c body, hs, _, hx => by
    obtain ⟨hxc, hxbody⟩ := List.forall_mem_append.mp hx
    have hd : shades.head? = some true → body.declared? ≠ some g.name := by simp [hs.1]
    simp only [Stmt.load, bind_apply, pure_apply, Stmt.findings, List.map_append]
    exact congrArg₂ _ (c.unkeyed_findings _ _ fun a ha => hnear.sees (hxc a ha))
      (body.unkeyed_findings _ _ b hnear hs.2 hd hxbody)
  | .funDecl n y params body, hs, hd, hx => by
    have hy : shades.head? = some true → y ≠ g.name := fun h heq => hd h (congrArg some heq)
    obtain ⟨hfaults, hnear'⟩ := hnear.declare hy (Location.orUnknown n)
    simp only [Stmt.load, bind_apply, pure_apply, Location.note_list,
      Stmt.findings, List.map_append, hfaults]
    rw [Scope.withFunctions_load ks ks']
    refine congrArg₂ _ rfl (Program.unkeyed_findings _ _ true (.plain (hnear'.define hy)) body hs
      (by simp) fun a ha heq => ?_)
    rw [hx a ha heq]
  | .returnStmt n e, _, _, hx => by
    simp only [Stmt.load, bind_apply, pure_apply, Stmt.findings, List.map_append]
    refine congrArg₂ _ ?_ (Expr.unkeyed_findings? _ _ e fun a ha => hnear.sees (hx a ha))
    cases b <;> rfl

theorem Program.unkeyed_findings (ks ks' : List Nat) (b : Bool) {shades : List Bool}
    {scopes scopes' : List Scope} (hnear : Scope.Near g.name shades scopes scopes') :
    ∀ p : Program (Option Location), Program.Scoped p →
    (shades.head? = some true → ∀ s ∈ p, s.declared? ≠ some g.name) →
    (∀ a ∈ Program.accesses p, a.name = g.name → scopes = scopes') →
    (Program.findings b scopes (Program.load p ks).1).1.map Finding.unkeyed =
      (Program.findings b scopes' (Program.load p ks').1).1.map Finding.unkeyed
  | [], _, _, _ => rfl
  | s :: rest, hs, hd, hx => by
    obtain ⟨hxs, hxrest⟩ := List.forall_mem_append.mp hx
    have hds := fun h => (List.forall_mem_cons.mp (hd h)).1
    simp only [Program.load, bind_apply, pure_apply, Program.findings, List.map_append,
      Stmt.findings_load_behind _ hs.1]
    refine congrArg₂ _ (s.unkeyed_findings _ _ b hnear hs.1 hds hxs) ?_
    refine Program.unkeyed_findings _ _ b (hnear.behind hds) rest hs.2
      (fun h => (List.forall_mem_cons.mp (hd h)).2) fun a ha heq => ?_
    rw [hxrest a ha heq]

end

mutual

/-- With any keys a statement is alike in scopes that are near each other. -/
theorem Stmt.alike (ks ks' : List Nat) (b : Bool) {shades : List Bool} {scopes scopes' : List Scope}
    (hnear : Scope.Near g.name shades scopes scopes') :
    ∀ s : Stmt (Option Location), s.Scoped →
      (shades.head? = some true → s.declared? ≠ some g.name) →
    (∀ a ∈ s.accesses, a.name = g.name → scopes = scopes') →
    g.table.Binds ((s.load ks).1.findings b scopes).1 →
    g.table'.Binds ((s.load ks').1.findings b scopes').1 →
    g.StmtAlike shades (s.load ks).1 (s.load ks').1
  | .expression _ e, _, _, hx, h, h' =>
    .expression (e.alike _ _ (fun a ha => hnear.sees (hx a ha)) h h')
  | .print _ e, _, _, hx, h, h' =>
    .print (e.alike _ _ (fun a ha => hnear.sees (hx a ha)) h h')
  | .varDecl n y e, _, hd, hx, h, h' => by
    have hy : shades.head? = some true → y ≠ g.name := fun h heq => hd h (congrArg some heq)
    obtain ⟨-, hnear'⟩ := hnear.declare hy (Location.orUnknown n)
    have he := (ResolutionTable.binds_append.mp h).2
    have he' := (ResolutionTable.binds_append.mp h').2
    refine .varDecl (Expr.alike? _ _ e (fun a ha => hnear'.sees fun heq => ?_) he he')
    rw [hx a ha heq]
  | .block n body, hs, _, hx, h, h' => by
    simp only [Stmt.load, bind_apply, pure_apply, Stmt.findings] at h h'
    rw [Scope.withFunctions_load ks ks'] at h
    refine .block (Program.alike _ _ b (.plain hnear) body hs (by simp) (fun a ha heq => ?_) h h')
    rw [hx a ha heq]
  | .ifElse n c t none, hs, _, hx, h, h' => by
    obtain ⟨hxc, hxt⟩ := List.forall_mem_append.mp hx
    have hd : shades.head? = some true → t.declared? ≠ some g.name := by simp [hs.1]
    obtain ⟨hc, ht⟩ := ResolutionTable.binds_append.mp h
    obtain ⟨hc', ht'⟩ := ResolutionTable.binds_append.mp h'
    exact .ifOnly (c.alike _ _ (fun a ha => hnear.sees (hxc a ha)) hc hc')
      (t.alike _ _ b hnear hs.2 hd hxt ht ht')
  | .ifElse n c t (some e), hs, _, hx, h, h' => by
    obtain ⟨hxct, hxe⟩ := List.forall_mem_append.mp hx
    obtain ⟨hxc, hxt⟩ := List.forall_mem_append.mp hxct
    have hdt : shades.head? = some true → t.declared? ≠ some g.name := by simp [hs.1.1]
    have hde : shades.head? = some true → e.declared? ≠ some g.name := by simp [hs.2.1]
    have hbehind (ks : List Nat) (scopes : List Scope) :
        ((t.load ks).1.findings b scopes).2 = scopes := by
      rw [Stmt.findings_load_behind _ hs.1.2, hs.1.1]
      rfl
    simp only [Stmt.load, bind_apply, pure_apply, Stmt.findings, hbehind] at h h'
    obtain ⟨hct, he⟩ := ResolutionTable.binds_append.mp h
    obtain ⟨hct', he'⟩ := ResolutionTable.binds_append.mp h'
    obtain ⟨hc, ht⟩ := ResolutionTable.binds_append.mp hct
    obtain ⟨hc', ht'⟩ := ResolutionTable.binds_append.mp hct'
    exact .ifElse (c.alike _ _ (fun a ha => hnear.sees (hxc a ha)) hc hc')
      (t.alike _ _ b hnear hs.1.2 hdt hxt ht ht') (e.alike _ _ b hnear hs.2.2 hde hxe he he')
  | .whileLoop n c body, hs, _, hx, h, h' => by
    obtain ⟨hxc, hxbody⟩ := List.forall_mem_append.mp hx
    have hd : shades.head? = some true → body.declared? ≠ some g.name := by simp [hs.1]
    obtain ⟨hc, hbody⟩ := ResolutionTable.binds_append.mp h
    obtain ⟨hc', hbody'⟩ := ResolutionTable.binds_append.mp h'
    exact .whileLoop (c.alike _ _ (fun a ha => hnear.sees (hxc a ha)) hc hc')
      (body.alike _ _ b hnear hs.2 hd hxbody hbody hbody')
  | .funDecl n y params body, hs, hd, hx, h, h' => by
    have hy : shades.head? = some true → y ≠ g.name := fun h heq => hd h (congrArg some heq)
    obtain ⟨-, hnear'⟩ := hnear.declare hy (Location.orUnknown n)
    simp only [Stmt.load, bind_apply, pure_apply, Stmt.findings] at h h'
    rw [Scope.withFunctions_load ks ks'] at h
    refine .funDecl (Program.alike _ _ true (.plain (hnear'.define hy)) body hs (by simp)
      (fun a ha heq => ?_) (ResolutionTable.binds_append.mp h).2
      (ResolutionTable.binds_append.mp h').2)
    rw [hx a ha heq]
  | .returnStmt n e, _, _, hx, h, h' =>
    .returnStmt (Expr.alike? _ _ e (fun a ha => hnear.sees (hx a ha))
      (ResolutionTable.binds_append.mp h).2 (ResolutionTable.binds_append.mp h').2)

theorem Program.alike (ks ks' : List Nat) (b : Bool) {shades : List Bool}
    {scopes scopes' : List Scope}
    (hnear : Scope.Near g.name shades scopes scopes') :
    ∀ p : Program (Option Location), Program.Scoped p →
    (shades.head? = some true → ∀ s ∈ p, s.declared? ≠ some g.name) →
    (∀ a ∈ Program.accesses p, a.name = g.name → scopes = scopes') →
    g.table.Binds (Program.findings b scopes (Program.load p ks).1).1 →
    g.table'.Binds (Program.findings b scopes' (Program.load p ks').1).1 →
    g.ProgramAlike shades (Program.load p ks).1 (Program.load p ks').1
  | [], _, _, _, _, _ => .nil
  | s :: rest, hs, hd, hx, h, h' => by
    obtain ⟨hxs, hxrest⟩ := List.forall_mem_append.mp hx
    have hds := fun h => (List.forall_mem_cons.mp (hd h)).1
    simp only [Program.load, bind_apply, pure_apply, Program.findings,
      Stmt.findings_load_behind _ hs.1] at h h'
    obtain ⟨hs₁, hrest⟩ := ResolutionTable.binds_append.mp h
    obtain ⟨hs₁', hrest'⟩ := ResolutionTable.binds_append.mp h'
    refine .cons (s.alike _ _ b hnear hs.1 hds hxs hs₁ hs₁') ?_
    refine Program.alike _ _ b (hnear.behind hds) rest hs.2
      (fun h => (List.forall_mem_cons.mp (hd h)).2) (fun a ha heq => ?_) hrest hrest'
    rw [hxrest a ha heq]

end

end

/-- The scope does not have the name, and no function of the name stands in it. -/
def Scope.Free (x : Name) (s : Scope) : Prop := s.state? x = none ∧ x ∉ s.hoisted

namespace Scope.Free

variable {x : Name} {s : Scope}

private theorem declared (h : s.Free x) {y : Name} (hy : y ≠ x) :
    ((s.declare y).2.define y).Free x := by
  refine ⟨?_, fun hmem => h.2 ((hoisted_declare_subset s y).subset hmem)⟩
  rw [state?_define, if_neg (Ne.symm hy), state?_declare, if_neg fun hxy => hy hxy.1.symm]
  exact h.1

private theorem hoist (h : s.Free x) {y : Name} (hy : y ≠ x) : (s.hoist y).Free x := by
  refine ⟨?_, ?_⟩
  · rw [state?_hoist, if_neg fun hxy => hy hxy.1.symm]
    exact h.1
  · rw [Scope.hoist]
    split
    · exact h.2
    · exact fun hmem => (List.mem_cons.mp hmem).elim (fun heq => hy heq.symm) h.2

private theorem withParams (h : s.Free x) {params : List Name} (hx : x ∉ params) (f : Name)
    (l : Location) : (Scope.withParams f l params s).2.Free x := by
  induction params generalizing s with
  | nil => exact h
  | cons y rest ih =>
    have hy : y ≠ x := fun heq => hx (heq ▸ List.mem_cons_self)
    exact ih (h.declared hy) fun hmem => hx (List.mem_cons_of_mem y hmem)

private theorem withFunctions (h : s.Free x) {body : Program Node}
    (hx : x ∉ Program.declared body) : (s.withFunctions body).Free x := by
  have hfunctions : x ∉ body.filterMap Stmt.declaredFunction? := by
    intro hmem
    obtain ⟨stmt, hstmt, hfun⟩ := List.mem_filterMap.mp hmem
    refine hx (List.mem_filterMap.mpr ⟨stmt, hstmt, ?_⟩)
    cases stmt with
    | funDecl n y params body => exact hfun
    | _ => cases hfun
  unfold Scope.withFunctions
  generalize body.filterMap Stmt.declaredFunction? = functions at hfunctions
  induction functions generalizing s with
  | nil => exact h
  | cons y rest ih =>
    obtain ⟨hy, hrest⟩ := not_or.mp (mt List.mem_cons.mpr hfunctions)
    exact ih (h.hoist (Ne.symm hy)) hrest

end Scope.Free

namespace Shading

variable (g : Shading)

/-- However their nodes are keyed, the resolver finds the same in both statements, and tables that
have what it finds make the two alike. -/
def ExtendsStmt (b : Bool) (shades : List Bool) (scopes : List Scope)
    (s s' : Stmt (Option Location)) :
    Prop :=
  ∀ ks ks' : List Nat, ((s.load ks).1.findings b scopes).1.map Finding.unkeyed =
      ((s'.load ks').1.findings b scopes).1.map Finding.unkeyed ∧
    (g.table.Binds ((s.load ks).1.findings b scopes).1 →
      g.table'.Binds ((s'.load ks').1.findings b scopes).1 →
      g.StmtAlike shades (s.load ks).1 (s'.load ks').1)

/-- However their nodes are keyed, the resolver finds the same in both programs, and tables that
have what it finds make the two alike. -/
def Extends (b : Bool) (shades : List Bool) (scopes : List Scope)
    (p p' : Program (Option Location)) :
    Prop :=
  ∀ ks ks' : List Nat, (Program.findings b scopes (Program.load p ks).1).1.map Finding.unkeyed =
      (Program.findings b scopes (Program.load p' ks').1).1.map Finding.unkeyed ∧
    (g.table.Binds (Program.findings b scopes (Program.load p ks).1).1 →
      g.table'.Binds (Program.findings b scopes (Program.load p' ks').1).1 →
      g.ProgramAlike shades (Program.load p ks).1 (Program.load p' ks').1)

variable {g} {b : Bool} {shades : List Bool} {scopes : List Scope} {s s' : Stmt (Option Location)}
  {rest rest' : Program (Option Location)}

theorem extendsStmt_refl (hnear : Scope.Near g.name shades scopes scopes) (hs : s.Scoped)
    (hd : shades.head? = some true → s.declared? ≠ some g.name) :
    g.ExtendsStmt b shades scopes s s := fun ks ks' =>
  ⟨s.unkeyed_findings ks ks' b hnear hs hd fun _ _ _ => rfl,
    s.alike ks ks' b hnear hs hd fun _ _ _ => rfl⟩

private theorem extends_refl (hnear : Scope.Near g.name shades scopes scopes)
    (hs : Program.Scoped rest)
    (hd : shades.head? = some true → ∀ s ∈ rest, s.declared? ≠ some g.name) :
    g.Extends b shades scopes rest rest := fun ks ks' =>
  ⟨Program.unkeyed_findings ks ks' b hnear rest hs hd fun _ _ _ => rfl,
    Program.alike ks ks' b hnear rest hs hd fun _ _ _ => rfl⟩

theorem Extends.cons (h : g.ExtendsStmt b shades scopes s s')
    (hrest : g.Extends b shades (Scope.behind s.declared? scopes) rest rest') (hs : s.Scoped)
    (hs' : s'.Scoped) (hd : s'.declared? = s.declared?) :
    g.Extends b shades scopes (s :: rest) (s' :: rest') := by
  intro ks ks'
  simp only [Program.load, bind_apply, pure_apply, Program.findings, Stmt.findings_load_behind _ hs,
    Stmt.findings_load_behind _ hs', hd, List.map_append]
  obtain ⟨hfindings, halike⟩ := h ks ks'
  obtain ⟨hfindings', halike'⟩ := hrest (s.load ks).2 (s'.load ks').2
  refine ⟨congrArg₂ _ hfindings hfindings', fun hbinds hbinds' => ?_⟩
  obtain ⟨hfirst, hothers⟩ := ResolutionTable.binds_append.mp hbinds
  obtain ⟨hfirst', hothers'⟩ := ResolutionTable.binds_append.mp hbinds'
  exact .cons (halike hfirst hfirst') (halike' hothers hothers')

/-- Behind all uses of its name a declaration changes nothing of what is found. -/
theorem extends_insert (hnear : Scope.Near g.name (true :: shades) scopes scopes)
    {before after : Program (Option Location)} (hs : Program.Scoped (before ++ after))
    (hd : ∀ s ∈ before ++ after, s.declared? ≠ some g.name)
    (hx : ∀ a ∈ Program.accesses after, a.name ≠ g.name) (n m : Option Location) (v : Literal) :
    g.Extends b (true :: shades) scopes (before ++ after)
      (before ++ .varDecl n g.name (some (.literal m v)) :: after) := by
  induction before generalizing scopes with
  | cons s rest ih =>
    obtain ⟨hds, hdrest⟩ := List.forall_mem_cons.mp hd
    exact .cons (extendsStmt_refl hnear hs.1 fun _ => hds)
      (ih (hnear.behind fun _ => hds) hs.2 hdrest) hs.1 hs.1 rfl
  | nil =>
    cases hnear with
    | @shaded _ s _ outer _ hnone hhoisted _ _ hnear =>
      have hdeclare : s.declare g.name =
          (true, { s with entries := (g.name, .declared) :: s.entries }) := by
        rw [Scope.declare, if_neg hhoisted, hnone]
        rfl
      let added : Scope := (s.declare g.name).2.define g.name
      have hadded : Scope.Near g.name (true :: shades) (s :: outer) (added :: outer) := by
        refine .shaded hnone hhoisted ?_ (fun y hy => ?_) hnear
        · simp only [added, hdeclare, Scope.define]
        · rw [Scope.state?_define, if_neg hy, Scope.state?_declare, if_neg fun h => hy h.1]
      intro ks ks'
      have hfindings : (Program.findings b (s :: outer) (Program.load
          (.varDecl n g.name (some (.literal m v)) :: after) ks').1).1 =
          (Program.findings b (added :: outer) (Program.load after ks'.tail.tail).1).1 := by
        simp only [Program.load, bind_apply, pure_apply, Program.findings, Stmt.load, Stmt.findings,
          Expr.load?,
          Expr.load, Expr.findings?, Scope.declareInner, Scope.defineInner, added, hdeclare]
        rfl
      have hname (a : Lox.Access (Option Location)) (ha : a ∈ Program.accesses after)
          (heq : a.name = g.name) : s :: outer = added :: outer := absurd heq (hx a ha)
      simp only [List.nil_append, hfindings]
      exact ⟨Program.unkeyed_findings ks _ b hadded after hs (fun _ => hd) hname,
        fun h h' => .insert (Program.alike ks _ b hadded after hs (fun _ => hd) hname h h')⟩

private theorem ProgramAlike.singleton {s s' : Stmt Node} (h : g.ProgramAlike shades [s] [s']) :
    g.StmtAlike shades s s' := by
  cases h with
  | cons h _ => exact h
  | insert h => cases h

private theorem ExtendsStmt.of_singleton {t t' : Stmt (Option Location)}
    (h : g.Extends b shades scopes [t] [t']) : g.ExtendsStmt b shades scopes t t' := by
  intro ks ks'
  obtain ⟨hfindings, halike⟩ := h ks ks'
  simp only [Program.load, bind_apply, pure_apply, Program.findings, List.append_nil]
    at hfindings halike
  exact ⟨hfindings, fun hbinds hbinds' => (halike hbinds hbinds').singleton⟩

private theorem ExtendsStmt.block {n : Option Location} (shaded : Bool)
    {body body' : Program (Option Location)}
    (hfunctions : body'.filterMap Stmt.declaredFunction? = body.filterMap Stmt.declaredFunction?)
    (h : ∀ ks : List Nat, g.Extends b (shaded :: shades)
      (Scope.empty.withFunctions (Program.load body ks).1 :: scopes) body body') :
    g.ExtendsStmt b shades scopes (.block n body) (.block n body') := by
  intro ks ks'
  have hinner : Scope.empty.withFunctions (Program.load body' ks').1 =
      Scope.empty.withFunctions (Program.load body ks).1 := by
    rw [Scope.withFunctions, Scope.withFunctions, Program.functions_load, hfunctions,
      Program.functions_load]
  obtain ⟨hfindings, halike⟩ := h ks ks ks'
  simp only [Stmt.load, bind_apply, pure_apply, Stmt.findings, hinner]
  exact ⟨hfindings, fun hbinds hbinds' => .block (halike hbinds hbinds')⟩

private theorem ExtendsStmt.function {n : Option Location} {f : Name} {params : List Name}
    (shaded : Bool) {body body' : Program (Option Location)}
    (hfunctions : body'.filterMap Stmt.declaredFunction? = body.filterMap Stmt.declaredFunction?)
    (h : ∀ ks : List Nat, g.Extends true (shaded :: shades)
      ((Scope.empty.withParams f (.orUnknown n) params).2.withFunctions (Program.load body ks).1 ::
        Scope.defineInner f (Scope.declareInner f (.orUnknown n) scopes).2) body body') :
    g.ExtendsStmt b shades scopes (.funDecl n f params body) (.funDecl n f params body') := by
  intro ks ks'
  have hinner (s : Scope) : s.withFunctions (Program.load body' ks').1 =
      s.withFunctions (Program.load body ks).1 := by
    rw [Scope.withFunctions, Scope.withFunctions, Program.functions_load, hfunctions,
      Program.functions_load]
  obtain ⟨hfindings, halike⟩ := h ks ks ks'
  simp only [Stmt.load, bind_apply, pure_apply, Stmt.findings, hinner, List.map_append]
  refine ⟨congrArg₂ _ rfl hfindings, fun hbinds hbinds' => .funDecl (halike ?_ ?_)⟩
  · exact (ResolutionTable.binds_append.mp hbinds).2
  · exact (ResolutionTable.binds_append.mp hbinds').2

end Shading

section

variable {α : Type} {x : Name} {params : List Name} {body body' : Program α}

private theorem Program.Inserted.scoped (h : Program.Inserted x params body body')
    (hs : Program.Scoped body) : Program.Scoped body' := by
  obtain ⟨before, after, n, m, v, rfl, rfl, -⟩ := h
  obtain ⟨hbefore, hafter⟩ := Program.Scoped.append.mp hs
  exact Program.Scoped.append.mpr ⟨hbefore, trivial, hafter⟩

private theorem Program.Inserted.notMem_params (h : Program.Inserted x params body body') :
    x ∉ params := by
  obtain ⟨before, after, n, m, v, -, -, hparams, -⟩ := h
  exact hparams

private theorem Program.Inserted.functions (h : Program.Inserted x params body body') :
    body'.filterMap Stmt.declaredFunction? = body.filterMap Stmt.declaredFunction? := by
  obtain ⟨before, after, n, m, v, rfl, rfl, -⟩ := h
  simp [List.filterMap_append, List.filterMap_cons, Stmt.declaredFunction?]

/-- A program keeps the declarations of its top level. -/
theorem Program.Shadowed.declarations {p p' : Program α} (h : Program.Shadowed x p p') :
    p'.filterMap Stmt.declared? = p.filterMap Stmt.declared? ∧
      p'.filterMap Stmt.declaredFunction? = p.filterMap Stmt.declaredFunction? := by
  induction h with
  | later _ ih => simp only [List.filterMap_cons, ih, and_self]
  | _ => exact ⟨rfl, rfl⟩

private theorem Program.Shadowed.declared?_none {t t' : Stmt α} (h : Program.Shadowed x [t] [t'])
    (ht : t.declared? = none) : t'.declared? = none := by
  have hdeclared := h.declarations.1
  rw [List.filterMap_cons_none ht] at hdeclared
  exact List.filterMap_eq_nil_iff.mp hdeclared t' List.mem_cons_self

private theorem Program.Shadowed.scoped {p p' : Program α} (h : Program.Shadowed x p p')
    (hs : Program.Scoped p) : Program.Scoped p' := by
  induction h with
  | inBlock h | inFunction h => exact ⟨h.scoped hs.1, hs.2⟩
  | block _ ih | function _ ih => exact ⟨ih hs.1, hs.2⟩
  | ifOnly h ih | loop h ih =>
    exact ⟨⟨h.declared?_none hs.1.1, (ih ⟨hs.1.2, trivial⟩).1⟩, hs.2⟩
  | thenBranch h ih =>
    exact ⟨⟨⟨h.declared?_none hs.1.1.1, (ih ⟨hs.1.1.2, trivial⟩).1⟩, hs.1.2⟩, hs.2⟩
  | elseBranch h ih =>
    exact ⟨⟨hs.1.1, h.declared?_none hs.1.2.1, (ih ⟨hs.1.2.2, trivial⟩).1⟩, hs.2⟩
  | later _ ih => exact ⟨hs.1, ih hs.2⟩

end

namespace Shading

variable {g : Shading} {b : Bool} {shades : List Bool} {scopes : List Scope}

section

variable {c : Expr (Option Location)} {t t' e e' : Stmt (Option Location)}

/-- The condition of a branch or loop is the same in both programs. -/
theorem extends_condition (hnear : Scope.Near g.name shades scopes scopes)
    (c : Expr (Option Location))
    (ks ks' : List Nat) : ((c.load ks).1.findings scopes).map Finding.unkeyed =
      ((c.load ks').1.findings scopes).map Finding.unkeyed ∧
    (g.table.Binds ((c.load ks).1.findings scopes) →
      g.table'.Binds ((c.load ks').1.findings scopes) →
      g.ExprAlike shades (c.load ks).1 (c.load ks').1) :=
  ⟨c.unkeyed_findings ks ks' fun _ _ => hnear.sees fun _ => rfl,
    c.alike ks ks' fun _ _ => hnear.sees fun _ => rfl⟩

private theorem ExtendsStmt.ifOnly (hnear : Scope.Near g.name shades scopes scopes)
    (ht : g.ExtendsStmt b shades scopes t t') (n : Option Location) :
    g.ExtendsStmt b shades scopes (.ifElse n c t none) (.ifElse n c t' none) := by
  intro ks ks'
  obtain ⟨hfc, hc⟩ := extends_condition hnear c ks ks'
  obtain ⟨hft, ht⟩ := ht (c.load ks).2 (c.load ks').2
  simp only [Stmt.load, bind_apply, pure_apply, Stmt.findings, List.map_append,
    ResolutionTable.binds_append]
  exact ⟨congrArg₂ _ hfc hft, fun h h' => .ifOnly (hc h.1 h'.1) (ht h.2 h'.2)⟩

private theorem ExtendsStmt.ifElse (hnear : Scope.Near g.name shades scopes scopes)
    (ht : g.ExtendsStmt b shades scopes t t') (he : g.ExtendsStmt b shades scopes e e')
    (hplain : t.Plain) (hplain' : t'.Plain) (n : Option Location) :
    g.ExtendsStmt b shades scopes (.ifElse n c t (some e)) (.ifElse n c t' (some e')) := by
  intro ks ks'
  have hbehind {t : Stmt (Option Location)} (hplain : t.Plain) (ks : List Nat) :
      ((t.load ks).1.findings b scopes).2 = scopes := by
    rw [Stmt.findings_load_behind _ hplain.2, hplain.1]
    rfl
  obtain ⟨hfc, hc⟩ := extends_condition hnear c ks ks'
  obtain ⟨hft, ht⟩ := ht (c.load ks).2 (c.load ks').2
  obtain ⟨hfe, he⟩ := he (t.load (c.load ks).2).2 (t'.load (c.load ks').2).2
  simp only [Stmt.load, bind_apply, pure_apply, Stmt.findings, hbehind hplain, hbehind hplain',
    List.map_append,
    ResolutionTable.binds_append]
  exact ⟨congrArg₂ _ (congrArg₂ _ hfc hft) hfe,
    fun h h' => .ifElse (hc h.1.1 h'.1.1) (ht h.1.2 h'.1.2) (he h.2 h'.2)⟩

private theorem ExtendsStmt.whileLoop (hnear : Scope.Near g.name shades scopes scopes)
    (ht : g.ExtendsStmt b shades scopes t t') (n : Option Location) :
    g.ExtendsStmt b shades scopes (.whileLoop n c t) (.whileLoop n c t') := by
  intro ks ks'
  obtain ⟨hfc, hc⟩ := extends_condition hnear c ks ks'
  obtain ⟨hft, ht⟩ := ht (c.load ks).2 (c.load ks').2
  simp only [Stmt.load, bind_apply, pure_apply, Stmt.findings, List.map_append,
    ResolutionTable.binds_append]
  exact ⟨congrArg₂ _ hfc hft, fun h h' => .whileLoop (hc h.1 h'.1) (ht h.2 h'.2)⟩

end

/-- Where no scope is shaded, neither is the innermost one. -/
theorem head?_ne {P : Prop} (hplain : ∀ shaded ∈ shades, shaded = false)
    (h : shades.head? = some true) : P :=
  absurd (hplain true (List.mem_of_mem_head? h)) nofun

private theorem near_declared (hplain : ∀ shaded ∈ shades, shaded = false)
    (hnear : Scope.Near g.name shades scopes scopes) (f : Name) (n : Location) :
    let behind := Scope.defineInner f (Scope.declareInner f (.orUnknown n) scopes).2
    Scope.Near g.name shades behind behind :=
  (hnear.declare (head?_ne hplain) n).2.define (head?_ne hplain)

private theorem Extends.head {s s' : Stmt (Option Location)} {rest : Program (Option Location)}
    (h : g.ExtendsStmt b shades scopes s s') (hs : Program.Scoped (s :: rest))
    (hs' : Program.Scoped (s' :: rest)) (hd : s'.declared? = s.declared?)
    (hplain : ∀ shaded ∈ shades, shaded = false)
    (hnear : Scope.Near g.name shades scopes scopes) :
    g.Extends b shades scopes (s :: rest) (s' :: rest) :=
  .cons h (extends_refl (hnear.behind (head?_ne hplain)) hs.2 (head?_ne hplain)) hs.1 hs'.1 hd

/-- The body in which the variable is declared. -/
theorem extends_inserted {params : List Name} {body body' : Program (Option Location)} {s : Scope}
    (h : Program.Inserted g.name params body body') (hfree : s.Free g.name)
    (hnear : Scope.Near g.name shades scopes scopes) (hs : Program.Scoped body) (ks : List Nat) :
    g.Extends b (true :: shades) (s.withFunctions (Program.load body ks).1 :: scopes)
      body body' := by
  obtain ⟨before, after, n, m, v, rfl, rfl, -, hd, hx⟩ := h
  have hd' := hd
  rw [← Program.declared_load ks] at hd'
  obtain ⟨hnone, hhoisted⟩ := hfree.withFunctions hd'
  refine extends_insert (.shaded hnone hhoisted rfl (fun _ _ => rfl) hnear) hs ?_ hx n m v
  exact fun stmt hstmt hdeclared => hd (List.mem_filterMap.mpr ⟨stmt, hstmt, hdeclared⟩)

/-- Outside that body no scope is shaded, and all is as before. -/
theorem extends_shadowed {p p' : Program (Option Location)} (h : Program.Shadowed g.name p p')
    (hs : Program.Scoped p) (hplain : ∀ shaded ∈ shades, shaded = false)
    (hnear : Scope.Near g.name shades scopes scopes) : g.Extends b shades scopes p p' := by
  have hinner {shades : List Bool} (hplain : ∀ shaded ∈ shades, shaded = false) :
      ∀ shaded ∈ false :: shades, shaded = false := List.forall_mem_cons.mpr ⟨rfl, hplain⟩
  have hs' := h.scoped hs
  induction h generalizing b shades scopes with
  | inBlock h =>
    refine .head (.block true h.functions fun ks => ?_) hs hs' rfl hplain hnear
    exact extends_inserted h ⟨rfl, List.not_mem_nil⟩ hnear hs.1 ks
  | @inFunction n f params body body' rest h =>
    have hbehind := near_declared hplain hnear f (.orUnknown n)
    refine .head (.function true h.functions fun ks => ?_) hs hs' rfl hplain hnear
    have hfree : (Scope.empty.withParams f (.orUnknown n) params).2.Free g.name :=
      Scope.Free.withParams ⟨rfl, List.not_mem_nil⟩ h.notMem_params f (.orUnknown n)
    exact extends_inserted h hfree hbehind hs.1 ks
  | block h ih =>
    refine .head (.block false h.declarations.2 fun ks => ?_) hs hs' rfl hplain hnear
    exact ih hs.1 (hinner hplain) (.plain hnear) hs'.1
  | @function n f params body body' rest h ih =>
    have hbehind := near_declared hplain hnear f (.orUnknown n)
    refine .head (.function false h.declarations.2 fun ks => ?_) hs hs' rfl hplain hnear
    exact ih hs.1 (hinner hplain) (.plain hbehind) hs'.1
  | ifOnly _ ih =>
    have ht := ih (b := b) ⟨hs.1.2, trivial⟩ hplain hnear ⟨hs'.1.2, trivial⟩
    exact .head (.ifOnly hnear (.of_singleton ht) _) hs hs' rfl hplain hnear
  | loop _ ih =>
    have ht := ih (b := b) ⟨hs.1.2, trivial⟩ hplain hnear ⟨hs'.1.2, trivial⟩
    exact .head (.whileLoop hnear (.of_singleton ht) _) hs hs' rfl hplain hnear
  | thenBranch _ ih =>
    have ht := ih (b := b) ⟨hs.1.1.2, trivial⟩ hplain hnear ⟨hs'.1.1.2, trivial⟩
    have he := extendsStmt_refl (b := b) hnear hs.1.2.2 (head?_ne hplain)
    exact .head (.ifElse hnear (.of_singleton ht) he hs.1.1 hs'.1.1 _) hs hs' rfl hplain hnear
  | elseBranch _ ih =>
    have ht := extendsStmt_refl (b := b) hnear hs.1.1.2 (head?_ne hplain)
    have he := ih (b := b) ⟨hs.1.2.2, trivial⟩ hplain hnear ⟨hs'.1.2.2, trivial⟩
    exact .head (.ifElse hnear ht (.of_singleton he) hs.1.1 hs'.1.1 _) hs hs' rfl hplain hnear
  | later _ ih =>
    exact .cons (extendsStmt_refl hnear hs.1 (head?_ne hplain))
      (ih hs.2 hplain (hnear.behind (head?_ne hplain)) hs'.2) hs.1 hs.1 rfl

end Shading

/-- The resolver reports of both programs the same, and its tables make them alike. -/
theorem resolve_shadowed {x : Name} {p p' : Program Node}
    (h : Program.Shadowed x (Program.map Keyed.location p) (Program.map Keyed.location p'))
    (hs : Program.Scoped p) (hkeys : (Program.keys p).Nodup) (hkeys' : (Program.keys p').Nodup)
    (known : List Name) (reportUndefined : Bool) :
    let resolved := resolve known reportUndefined p
    let resolved' := resolve known reportUndefined p'
    resolved'.diagnostics = resolved.diagnostics ∧
      Shading.ProgramAlike ⟨x, resolved.table, resolved'.table⟩ [] p p' := by
  intro resolved resolved'
  let g : Shading := ⟨x, resolved.table, resolved'.table⟩
  have horigin : Program.Shadowed x (Program.map Node.origin p) (Program.map Node.origin p') := by
    have hsome := h.map some
    rwa [Program.map_map, Program.map_map] at hsome
  have hextends : g.Extends false [] [] (Program.map Node.origin p) (Program.map Node.origin p') :=
    Shading.extends_shadowed horigin ((Program.scoped_map Node.origin p).mpr hs) nofun .nil
  obtain ⟨hfindings, halike⟩ := hextends (Program.keys p) (Program.keys p')
  rw [Program.load_keys, Program.load_keys] at hfindings halike
  refine ⟨resolve_diagnostics_congr ?_ hfindings.symm known reportUndefined, ?_⟩
  · rw [← Program.declared_map Node.origin, ← Program.declared_map Node.origin p]
    exact horigin.declarations.1
  · exact halike (resolve_binds hkeys known reportUndefined)
      (resolve_binds hkeys' known reportUndefined)

end Lox
