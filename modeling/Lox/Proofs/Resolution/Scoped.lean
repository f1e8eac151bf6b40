import Lox.Proofs.Resolution.Stands

/-! Trees in which declarations stand only in programs, blocks and bodies, as the grammar has it. In
these the scopes of the resolver agree with what a run has defined, up to hoisted functions. -/

namespace Lox

section

variable {α : Type}

mutual

/-- No branch and no loop body is itself a declaration. -/
def Stmt.Scoped : Stmt α → Prop
  | .block _ body => Program.Scoped body
  | .ifElse _ _ t none => t.declared? = none ∧ t.Scoped
  | .ifElse _ _ t (some e) => (t.declared? = none ∧ t.Scoped) ∧ e.declared? = none ∧ e.Scoped
  | .whileLoop _ _ body => body.declared? = none ∧ body.Scoped
  | .funDecl _ _ _ body => Program.Scoped body
  | _ => True

def Program.Scoped : Program α → Prop
  | [] => True
  | s :: rest => s.Scoped ∧ Program.Scoped rest

end

theorem Program.Scoped.append {p q : Program α} :
    Program.Scoped (p ++ q) ↔ Program.Scoped p ∧ Program.Scoped q := by
  induction p with
  | nil => exact (true_and _).to_iff.symm
  | cons s rest ih => exact (and_congr_right' ih).trans and_assoc.symm

end

/-- In a tree where declarations stand only where they may, only they give a scope its names. -/
theorem Stmt.ownNames_eq : ∀ s : Stmt Node, s.Scoped → s.ownNames = s.declared?.toList
  | .expression .., _ | .print .., _ | .block .., _ | .returnStmt .., _ => rfl
  | .varDecl .., _ | .funDecl .., _ => rfl
  | .ifElse _ _ t none, hs => by
    rw [Stmt.ownNames, t.ownNames_eq hs.2, hs.1]
    rfl
  | .ifElse _ _ t (some e), hs => by
    rw [Stmt.ownNames, t.ownNames_eq hs.1.2, hs.1.1, e.ownNames_eq hs.2.2, hs.2.1]
    rfl
  | .whileLoop _ _ body, hs => by
    rw [Stmt.ownNames, body.ownNames_eq hs.2, hs.1]
    rfl

theorem Program.ownNames_eq_declared {stmts : Program Node} (h : Program.Scoped stmts) :
    Program.ownNames stmts = Program.declared stmts := by
  induction stmts with
  | nil => rfl
  | cons s rest ih =>
    rw [Program.ownNames, s.ownNames_eq h.1, ih h.2]
    unfold Program.declared
    cases hd : s.declared? with
    | none => rw [List.filterMap_cons_none hd]; rfl
    | some x => rw [List.filterMap_cons_some hd]; rfl

namespace Scope

variable {s : Scope} {x y : Name}

theorem state?_declare (s : Scope) (x y : Name) : (s.declare x).2.state? y =
    if y = x ∧ x ∉ s.hoisted ∧ s.state? x = none then some .declared else s.state? y := by
  rw [declare]
  by_cases hx : x ∈ s.hoisted
  · simp [hx, state?]
  · rw [if_neg hx]
    cases hs : s.state? x with
    | some st => simp
    | none =>
      by_cases hy : y = x
      · simp [hy, hx, state?]
      · have hne : (y == x) = false := by simpa using hy
        simp [hy, state?, List.lookup_cons, hne]

/-- Declaring a name takes no definition away. -/
theorem state?_declare_of_some {st : NameState} (h : s.state? y = some st) (x : Name) :
    (s.declare x).2.state? y = some st := by
  rw [state?_declare, if_neg]
  · exact h
  · rintro ⟨rfl, -, hnone⟩
    rw [h] at hnone
    cases hnone

/-- Declaring a name defines nothing. -/
theorem defined_of_declare (h : (s.declare x).2.state? y = some .defined) :
    s.state? y = some .defined := by
  rw [state?_declare] at h
  split at h
  · cases h
  · exact h

theorem state?_hoist (s : Scope) (x y : Name) : (s.hoist x).state? y =
    if y = x ∧ s.state? x = none then some .defined else s.state? y := by
  rw [hoist]
  cases hs : s.state? x with
  | some st => simp
  | none =>
    by_cases hy : y = x
    · simp [hy, state?]
    · have hne : (y == x) = false := by simpa using hy
      simp [hy, state?, List.lookup_cons, hne]

theorem state?_hoistAll_of_some {st : NameState} (xs : List Name) (h : s.state? y = some st) :
    (xs.foldl (fun s x => s.hoist x) s).state? y = some st := by
  induction xs generalizing s with
  | nil => exact h
  | cons x xs ih =>
    refine ih ?_
    rw [state?_hoist, if_neg]
    · exact h
    · rintro ⟨rfl, hnone⟩
      rw [h] at hnone
      cases hnone

theorem state?_of_hoistAll {st : NameState} (xs : List Name)
    (h : (xs.foldl (fun s x => s.hoist x) s).state? y = some st) :
    s.state? y = some st ∨ y ∈ xs := by
  induction xs generalizing s with
  | nil => exact .inl h
  | cons x xs ih =>
    rcases ih h with h | h
    · rw [state?_hoist] at h
      split at h
      · rename_i hy
        exact .inr (hy.1 ▸ List.mem_cons_self)
      · exact .inl h
    · exact .inr (List.mem_cons_of_mem _ h)

/-- After its parameters a scope has the names that it had before, and the parameters. -/
theorem state?_withParams (f : Name) (l : Location) (params : List Name) (y : Name) :
    (withParams f l params s).2.state? y = some .defined ↔
      y ∈ params ∨ s.state? y = some .defined := by
  induction params generalizing s with
  | nil => simp [withParams]
  | cons p rest ih =>
    simp only [withParams]
    rw [ih, state?_define]
    by_cases hy : y = p
    · simp [hy]
    · rw [if_neg hy, state?_declare, if_neg fun h => hy h.1]
      simp [hy]

end Scope

/-- The functions that a block or function declares directly. -/
def Stmt.functions (o : Stmt Node) : List Name := o.inside.filterMap Stmt.declaredFunction?

/-- What the resolver knows of the scope of a block or function, and what a run has defined. -/
structure Layer (o : Stmt Node) (s : Scope) (names : List Name) : Prop where
  defined : ∀ x ∈ names, s.state? x = some .defined
  ahead : ∀ x, s.state? x = some .defined → x ∈ names ∨ x ∈ o.functions
  own : ∀ x ∈ names, x ∈ o.scopeNames

inductive Layers : List (Stmt Node) → List Scope → List (List Name) → Prop where
  | nil : Layers [] [] []
  | cons {o s names owners scopes settled} : Layer o s names → Layers owners scopes settled →
      Layers (o :: owners) (s :: scopes) (names :: settled)

private theorem Program.functions_subset_ownNames (stmts : Program Node) :
    stmts.filterMap Stmt.declaredFunction? ⊆ Program.ownNames stmts := by
  induction stmts with
  | nil => exact List.Subset.refl _
  | cons s rest ih =>
    cases s with
    | funDecl n x params body => exact List.cons_subset_cons _ ih
    | _ => exact List.subset_append_of_subset_right _ ih

theorem Stmt.functions_subset_scopeNames (o : Stmt Node) : o.functions ⊆ o.scopeNames := by
  cases o with
  | block n body => exact Program.functions_subset_ownNames body
  | funDecl n x params body =>
    exact List.subset_append_of_subset_right _ (Program.functions_subset_ownNames body)
  | _ => exact List.nil_subset _

theorem Stmt.findings_of_not_declaration (b : Bool) (scopes : List Scope) :
    ∀ s : Stmt Node, s.Scoped → s.declared? = none → (s.findings b scopes).2 = scopes
  | .expression .., _, _ | .print .., _, _ | .block .., _, _ | .returnStmt .., _, _ => rfl
  | .varDecl .., _, h | .funDecl .., _, h => by cases h
  | .ifElse _ _ t none, hs, _ => t.findings_of_not_declaration b scopes hs.2 hs.1
  | .ifElse _ _ t (some e), hs, _ => by
    have ht := t.findings_of_not_declaration b scopes hs.1.2 hs.1.1
    have he := e.findings_of_not_declaration b scopes hs.2.2 hs.2.1
    simp only [Stmt.findings, ht, he]
  | .whileLoop _ _ body, hs, _ => body.findings_of_not_declaration b scopes hs.2 hs.1

/-- A declaration declares and defines its name in the innermost scope. -/
theorem Stmt.findings_of_declaration {s : Stmt Node} {x : Name} (h : s.declared? = some x)
    (b : Bool) (scopes : List Scope) : (s.findings b scopes).2 =
      Scope.defineInner x (Scope.declareInner x s.note.location scopes).2 := by
  cases s with
  | varDecl n y e => cases h; rfl
  | funDecl n y params body => cases h; rfl
  | _ => cases h

namespace Layers

variable {owners : List (Stmt Node)} {scopes : List Scope} {settled : List (List Name)} {x : Name}

theorem declare (h : Layers owners scopes settled) (l : Location) :
    Layers owners (Scope.declareInner x l scopes).2 settled := by
  cases h with
  | nil => exact .nil
  | cons hlayer houter =>
    refine .cons ⟨fun y hy => ?_, fun y hy => ?_, hlayer.own⟩ houter
    · exact Scope.state?_declare_of_some (hlayer.defined y hy) x
    · exact hlayer.ahead y (Scope.defined_of_declare hy)

private theorem define (h : Layers owners scopes settled)
    (hx : ∀ o outer, owners = o :: outer → x ∈ o.scopeNames) :
    Layers owners (Scope.defineInner x scopes) (Place.settle (some x) settled) := by
  cases h with
  | nil => exact .nil
  | cons hlayer houter =>
    refine .cons ⟨fun y hy => ?_, fun y hy => ?_, fun y hy => ?_⟩ houter
    · rw [Scope.state?_define]
      by_cases hyx : y = x
      · rw [if_pos hyx]
      · rw [if_neg hyx]
        exact hlayer.defined y ((List.mem_cons.mp hy).resolve_left hyx)
    · rw [Scope.state?_define] at hy
      by_cases hyx : y = x
      · exact .inl (hyx ▸ List.mem_cons_self)
      · rw [if_neg hyx] at hy
        exact (hlayer.ahead y hy).imp_left (List.mem_cons_of_mem _)
    · rcases List.mem_cons.mp hy with rfl | hy
      · exact hx _ _ rfl
      · exact hlayer.own y hy

private theorem after {p : Place} {s : Stmt Node} (h : Layers p.owners p.scopes p.settled)
    (hs : s.Scoped) (hx : ∀ x, s.declared? = some x → ∀ o outer, p.owners = o :: outer →
      x ∈ o.scopeNames) :
    Layers (p.after s).owners (p.after s).scopes (p.after s).settled := by
  unfold Place.after
  cases hd : s.declared? with
  | none =>
    dsimp only
    rw [s.findings_of_not_declaration _ _ hs hd]
    exact h
  | some x =>
    dsimp only
    rw [Stmt.findings_of_declaration hd]
    exact (h.declare _).define (hx x hd)

/-- The layer so many steps out. -/
theorem get (h : Layers owners scopes settled) {d : Nat} {s : Scope} (hs : scopes[d]? = some s) :
    ∃ o names, owners[d]? = some o ∧ settled[d]? = some names ∧ Layer o s names := by
  induction h generalizing d with
  | nil => cases hs
  | cons hlayer _ ih =>
    cases d with
    | zero =>
      cases hs
      exact ⟨_, _, rfl, rfl, hlayer⟩
    | succ d => exact ih hs

end Layers

namespace Stands

variable {q stmts : Program Node} {p : Place}

theorem isScoped (h : Stands q p stmts) (hq : Program.Scoped q) : Program.Scoped stmts := by
  induction h with
  | top => exact hq
  | next _ ih => exact ih.2
  | block _ ih => exact ih.1
  | function _ ih => exact ih.1
  | @thenBranch _ _ _ t e _ _ ih =>
    cases e with
    | none => exact ⟨ih.1.2, trivial⟩
    | some e => exact ⟨ih.1.1.2, trivial⟩
  | elseBranch _ ih => exact ⟨ih.1.2.2, trivial⟩
  | loop _ ih => exact ⟨ih.1.2, trivial⟩

private theorem layers (h : Stands q p stmts) (hq : Program.Scoped q) :
    Layers p.owners p.scopes p.settled := by
  induction h with
  | top => exact .nil
  | next h ih => exact ih.after (h.isScoped hq).1 fun x hx o outer ho => h.declared_mem hx ho
  | @block p n body rest h ih =>
    refine .cons ⟨fun x hx => absurd hx List.not_mem_nil, fun x hx => ?_,
      fun x hx => absurd hx List.not_mem_nil⟩ ih
    rcases Scope.state?_of_hoistAll _ hx with hx | hx
    · cases hx
    · exact .inr hx
  | @function p n x params body rest h ih =>
    have houter := ih.after (s := .funDecl n x params body) (h.isScoped hq).1
      fun y hy o outer ho => h.declared_mem hy ho
    refine .cons ⟨fun y hy => ?_, fun y hy => ?_, fun y hy => List.mem_append_left _ hy⟩ houter
    · refine Scope.state?_hoistAll_of_some _ ?_
      rw [Scope.state?_withParams]
      exact .inl hy
    · rcases Scope.state?_of_hoistAll _ hy with hy | hy
      · rw [Scope.state?_withParams] at hy
        rcases hy with hy | hy
        · exact .inl hy
        · cases hy
      · exact .inr hy
  | thenBranch _ ih => exact ih
  | @elseBranch p n c t e rest h ih =>
    have hs := (h.isScoped hq).1.1
    unfold Place.besides
    dsimp only
    rw [t.findings_of_not_declaration _ _ hs.2 hs.1]
    exact ih
  | loop _ ih => exact ih

end Stands

/-- The statements of a program have declarations only where they may stand. -/
theorem Site.isScoped {q : Program Node} {s : Stmt Node} {p : Place} (hq : Program.Scoped q)
    (h : ⟨.stmt s, p⟩ ∈ Program.sites .top q) : s.Scoped := by
  obtain ⟨p', s', rest, hstands, hsite⟩ := Program.exists_stands .top h
  rcases s'.eq_of_mem_ownSites hsite with heq | ⟨e, heq⟩ | ⟨n, x, e, e', -, heq⟩
  · cases heq
    exact (hstands.isScoped hq).1
  · cases heq
  · cases heq

/-- At every site the resolver knows what a run has defined, and besides that only functions that
are hoisted. -/
theorem Site.layers {q : Program Node} {site : Site} (hq : Program.Scoped q)
    (h : site ∈ Program.sites .top q) :
    Layers site.place.owners site.place.scopes site.place.settled := by
  obtain ⟨p, s, rest, hstands, hsite⟩ := Program.exists_stands .top h
  have hlayers := hstands.layers hq
  rcases s.eq_of_mem_ownSites hsite with rfl | ⟨e, rfl⟩ | ⟨n, x, e, e', -, rfl⟩
  · exact hlayers
  · exact hlayers
  · exact hlayers.declare n.location

end Lox
