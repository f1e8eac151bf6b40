import Lox.Proofs.Resolution.Scoped
import Lox.Proofs.Resolution.Table

/-! Programs in which no name of a block or body is used before it is declared there. At an access
to a variable, a scope around it either has not the name at all, or a run has defined it, or the
access is in the initializer of the variable. -/

namespace Lox

section

variable {α : Type}

mutual

/-- The bodies of the blocks and functions of a statement. -/
def Stmt.bodies : Stmt α → List (Program α)
  | .block _ body => body :: Program.bodies body
  | .ifElse _ _ t none => t.bodies
  | .ifElse _ _ t (some e) => t.bodies ++ e.bodies
  | .whileLoop _ _ body => body.bodies
  | .funDecl _ _ _ body => body :: Program.bodies body
  | _ => []

def Program.bodies : Program α → List (Program α)
  | [] => []
  | s :: rest => s.bodies ++ Program.bodies rest

end

/-- Nothing that comes before a declaration of the body uses its name, anywhere inside. -/
def Program.UsesFollow (body : Program α) : Prop :=
  ∀ before d after, body = before ++ d :: after → ∀ x, d.declared? = some x →
    ∀ a ∈ Program.accesses before, a.name ≠ x

private theorem Program.usesFollow_iff {body : Program α} :
    Program.UsesFollow body ↔ ∀ i : Fin body.length, ∀ x ∈ body[i].declared?.toList,
      ∀ a ∈ Program.accesses (body.take i), a.name ≠ x := by
  constructor
  · intro h i x hx
    have heq : body = body.take i ++ body[i] :: body.drop (i + 1) := by simp
    exact h _ _ _ heq x (Option.mem_toList.mp hx)
  · intro h before d after heq x hx
    subst heq
    have hd := h ⟨before.length, by simp⟩ x
    simp only [Fin.getElem_fin, List.getElem_append_right (Nat.le_refl _), Nat.sub_self,
      List.getElem_cons_zero, List.take_left] at hd
    exact hd (Option.mem_toList.mpr hx)

instance (body : Program α) : Decidable (Program.UsesFollow body) :=
  decidable_of_iff _ Program.usesFollow_iff.symm

end

/-- The statements do not use the name before they come to its declaration. -/
def Ahead (x : Name) : Program Node → Prop
  | [] => True
  | s :: rest => s.declared? ≠ some x → (∀ a ∈ s.accesses, a.name ≠ x) ∧ Ahead x rest

section

variable {x : Name} {s : Stmt Node} {stmts rest : Program Node}

theorem Program.mem_accesses_cons {a : Access Node} :
    a ∈ Program.accesses (s :: rest) ↔ a ∈ s.accesses ∨ a ∈ Program.accesses rest := by
  rw [Program.accesses, List.mem_append]

theorem Ahead.of_unused (h : ∀ a ∈ Program.accesses stmts, a.name ≠ x) : Ahead x stmts := by
  induction stmts with
  | nil => exact trivial
  | cons s rest ih =>
    intro _
    constructor
    · exact fun a ha => h a (Program.mem_accesses_cons.mpr (.inl ha))
    · exact ih fun a ha => h a (Program.mem_accesses_cons.mpr (.inr ha))

private theorem Ahead.of_usesFollow (h : Program.UsesFollow stmts)
    (hx : x ∈ Program.declared stmts) : Ahead x stmts := by
  induction stmts with
  | nil => exact trivial
  | cons s rest ih =>
    intro hs
    have hrest : x ∈ Program.declared rest := by
      obtain ⟨d, hd, hdx⟩ := List.mem_filterMap.mp hx
      rcases List.mem_cons.mp hd with rfl | hd
      · exact absurd hdx hs
      · exact List.mem_filterMap.mpr ⟨d, hd, hdx⟩
    have hfollow : Program.UsesFollow rest := by
      intro before d after heq y hy a ha
      refine h (s :: before) d after (by rw [heq]; rfl) y hy a ?_
      exact Program.mem_accesses_cons.mpr (.inr ha)
    refine ⟨fun a ha => ?_, ih hfollow hrest⟩
    obtain ⟨d, hd, hdx⟩ := List.mem_filterMap.mp hrest
    obtain ⟨before, after, rfl⟩ := List.append_of_mem hd
    exact h (s :: before) d after rfl x hdx a (Program.mem_accesses_cons.mpr (.inl ha))

end

/-- Behind a statement the names of the innermost scope grow by what it declares. -/
theorem Place.settled_after {p : Place} {s : Stmt Node} {d : Nat} {names : List Name}
    (h : (p.after s).settled[d]? = some names) : ∃ before, p.settled[d]? = some before ∧
      ∀ x ∉ names, x ∉ before ∧ (d = 0 → s.declared? ≠ some x) := by
  have hsettle : (Place.settle s.declared? p.settled)[d]? = some names := h
  cases hd : s.declared? with
  | none =>
    rw [hd] at hsettle
    exact ⟨names, hsettle, fun x hx => ⟨hx, fun _ => (Option.some_ne_none x).symm⟩⟩
  | some y =>
    rw [hd] at hsettle
    cases hp : p.settled with
    | nil => rw [hp] at hsettle; cases hsettle
    | cons before outer =>
      rw [hp] at hsettle
      cases d with
      | succ d => exact ⟨names, hsettle, fun x hx => ⟨hx, fun hzero => by cases hzero⟩⟩
      | zero =>
        cases hsettle
        refine ⟨before, rfl, fun x hx => ⟨fun hmem => hx (List.mem_cons_of_mem _ hmem), ?_⟩⟩
        intro _ hxy
        cases hxy
        exact hx List.mem_cons_self

/-- A name of a scope around a place that a run has not defined yet is used only behind its
declaration, which is ahead if the scope is the innermost one. -/
def Pending (p : Place) (stmts : Program Node) : Prop :=
  ∀ (d : Nat) o names x, p.owners[d]? = some o → p.settled[d]? = some names → x ∈ o.scopeNames →
    x ∉ names → Ahead x stmts ∧ (d ≠ 0 → ∀ a ∈ Program.accesses stmts, a.name ≠ x)

namespace Pending

variable {p : Place} {s t : Stmt Node} {rest : Program Node} {d : Nat} {o : Stmt Node}
  {names : List Name} {x : Name}

/-- A statement does not use a name that is pending and that it does not declare. -/
theorem unused (h : Pending p (s :: rest)) (ho : p.owners[d]? = some o)
    (hnames : p.settled[d]? = some names) (hx : x ∈ o.scopeNames) (hx' : x ∉ names)
    (hs : d = 0 → s.declared? ≠ some x) : ∀ a ∈ s.accesses, a.name ≠ x := by
  obtain ⟨hahead, hunused⟩ := h d o names x ho hnames hx hx'
  by_cases hd : d = 0
  · exact (hahead (hs hd)).1
  · exact fun a ha => hunused hd a (Program.mem_accesses_cons.mpr (.inl ha))

/-- A branch or the body of a loop. -/
theorem branch (h : Pending p (s :: rest)) (hs : s.declared? = none)
    (ht : t.accesses ⊆ s.accesses) : Pending p [t] := by
  intro d o names x ho hnames hx hx'
  have hunused : ∀ a ∈ Program.accesses [t], a.name ≠ x := by
    intro a ha
    refine h.unused ho hnames hx hx' (fun _ => ?_) a (ht ?_)
    · rw [hs]
      exact (Option.some_ne_none x).symm
    · simpa [Program.accesses] using ha
  exact ⟨.of_unused hunused, fun _ => hunused⟩

private theorem after (h : Pending p (s :: rest)) : Pending (p.after s) rest := by
  intro d o names x ho hnames hx hx'
  obtain ⟨before, hbefore, hnotMem⟩ := Place.settled_after hnames
  obtain ⟨hx₀, hs⟩ := hnotMem x hx'
  obtain ⟨hahead, hunused⟩ := h d o before x ho hbefore hx hx₀
  have hrest (hd : d ≠ 0) : ∀ a ∈ Program.accesses rest, a.name ≠ x :=
    fun a ha => hunused hd a (Program.mem_accesses_cons.mpr (.inr ha))
  refine ⟨?_, hrest⟩
  by_cases hd : d = 0
  · exact (hahead (hs hd)).2
  · exact .of_unused (hrest hd)

/-- The body of a block or a function, which declares its names before it uses them. -/
theorem inside (h : Pending p (s :: rest)) {p' : Place} {body : Program Node} {inner : List Name}
    (howners : p'.owners = s :: p.owners) (hsettled : p'.settled = inner :: (p.after s).settled)
    (hown : ∀ x ∈ s.scopeNames, x ∉ inner → x ∈ Program.declared body)
    (haccesses : Program.accesses body = s.accesses) (hfollow : Program.UsesFollow body) :
    Pending p' body := by
  intro d o names x ho hnames hx hx'
  rw [howners] at ho
  rw [hsettled] at hnames
  cases d with
  | zero =>
    cases ho
    cases hnames
    exact ⟨.of_usesFollow hfollow (hown x hx hx'), fun hd => absurd rfl hd⟩
  | succ d =>
    obtain ⟨before, hbefore, hnotMem⟩ := Place.settled_after hnames
    obtain ⟨hx₀, hs⟩ := hnotMem x hx'
    have hunused : ∀ a ∈ Program.accesses body, a.name ≠ x := by
      rw [haccesses]
      exact h.unused ho hbefore hx hx₀ hs
    exact ⟨.of_unused hunused, fun _ => hunused⟩

end Pending

namespace Stands

variable {q stmts : Program Node} {p : Place}

private theorem bodies_subset (h : Stands q p stmts) : Program.bodies stmts ⊆ Program.bodies q := by
  induction h with
  | top => exact List.Subset.refl _
  | next _ ih => exact (List.append_subset.mp ih).2
  | block _ ih | function _ ih => exact (List.cons_subset.mp (List.append_subset.mp ih).1).2
  | @thenBranch _ _ _ t e _ _ ih =>
    have hif := (List.append_subset.mp ih).1
    cases e with
    | none => simpa [Program.bodies, Stmt.bodies] using hif
    | some e => simpa [Program.bodies] using (List.append_subset.mp hif).1
  | @elseBranch _ _ _ t e _ _ ih =>
    simpa [Program.bodies] using (List.append_subset.mp (List.append_subset.mp ih).1).2
  | loop _ ih => simpa [Program.bodies, Stmt.bodies] using (List.append_subset.mp ih).1

private theorem pending (h : Stands q p stmts) (hq : Program.Scoped q)
    (hfollow : ∀ body ∈ Program.bodies q, Program.UsesFollow body) : Pending p stmts := by
  have hbody {p : Place} {s : Stmt Node} {rest : Program Node} (h : Stands q p (s :: rest))
      {body : Program Node} (hs : body ∈ s.bodies) : Program.UsesFollow body :=
    hfollow body (h.bodies_subset (List.mem_append_left _ hs))
  induction h with
  | top =>
    intro d o names x ho
    cases ho
  | next _ ih => exact ih.after
  | @block p n body rest h ih =>
    refine ih.inside (s := .block n body) rfl rfl (fun x hx _ => ?_) rfl
      (hbody h List.mem_cons_self)
    rw [← Program.ownNames_eq_declared (h.isScoped hq).1]
    exact hx
  | @function p n f params body rest h ih =>
    refine ih.inside (s := .funDecl n f params body) rfl rfl (fun x hx hx' => ?_) rfl
      (hbody h List.mem_cons_self)
    rw [← Program.ownNames_eq_declared (h.isScoped hq).1]
    exact (List.mem_append.mp hx).resolve_left hx'
  | @thenBranch p n c t e rest h ih =>
    refine ih.branch rfl ?_
    cases e with
    | none => exact List.subset_append_right _ _
    | some e =>
      exact List.subset_append_of_subset_left _ (List.subset_append_right _ _)
  | @elseBranch p n c t e rest h ih =>
    exact Pending.branch (p := p) ih rfl (List.subset_append_right _ _)
  | loop _ ih => exact ih.branch rfl (List.subset_append_right _ _)

end Stands

mutual

/-- In an expression the resolver finds its accesses and nothing else. -/
theorem Expr.findings_eq_map_accesses (scopes : List Scope) : ∀ e : Expr Node,
    e.findings scopes = e.accesses.map fun a => .access a.note a.name (Scope.depth? a.name scopes)
  | .binary _ l _ r | .logical _ l _ r => by
    rw [Expr.findings, Expr.accesses, List.map_append, l.findings_eq_map_accesses scopes,
      r.findings_eq_map_accesses scopes]
  | .grouping _ e | .unary _ _ e => by
    rw [Expr.findings, Expr.accesses, e.findings_eq_map_accesses scopes]
  | .literal .. | .reference .. => rfl
  | .assign _ _ e => by
    rw [Expr.findings, Expr.accesses, List.map_append, e.findings_eq_map_accesses scopes]
    rfl
  | .call _ c args => by
    rw [Expr.findings, Expr.accesses, List.map_append, c.findings_eq_map_accesses scopes,
      Expr.findingsAll_eq_map_accesses scopes args]

theorem Expr.findingsAll_eq_map_accesses (scopes : List Scope) : ∀ es : List (Expr Node),
    Expr.findingsAll scopes es = (Expr.accessesAll es).map fun a =>
      .access a.note a.name (Scope.depth? a.name scopes)
  | [] => rfl
  | e :: rest => by
    rw [Expr.findingsAll, Expr.accessesAll, List.map_append, e.findings_eq_map_accesses scopes,
      Expr.findingsAll_eq_map_accesses scopes rest]

end

section

variable {p : Place} {site : Site} {n : Node} {x : Name}

theorem Expr.exists_access {e : Expr Node} (h : site ∈ e.sites p)
    (hx : site.code.access? = some (n, x)) : ∃ a ∈ e.accesses, a.name = x := by
  have hfinding : .access n x (Scope.depth? x site.place.scopes) ∈ e.findings p.scopes := by
    rw [e.access_mem_findings p]
    exact ⟨site, h, Site.access?_eq_some.mpr ⟨hx, rfl⟩⟩
  rw [e.findings_eq_map_accesses] at hfinding
  obtain ⟨a, ha, heq⟩ := List.mem_map.mp hfinding
  injection heq with _ hname
  exact ⟨a, ha, hname⟩

private theorem Expr.exists_access? {e : Option (Expr Node)} (h : site ∈ Expr.sites? p e)
    (hx : site.code.access? = some (n, x)) : ∃ a ∈ Expr.accesses? e, a.name = x := by
  cases e with
  | none => exact absurd h List.not_mem_nil
  | some e => exact e.exists_access h hx

/-- What a statement itself reads or writes is one of its accesses; it does not declare a function
then. -/
theorem Stmt.exists_access {s : Stmt Node} (h : site ∈ s.ownSites p)
    (hx : site.code.access? = some (n, x)) :
    (∃ a ∈ s.accesses, a.name = x) ∧ s.declaredFunction? = none := by
  rcases List.mem_cons.mp h with rfl | h
  · cases hx
  · cases s with
    | expression m e | print m e => exact ⟨e.exists_access h hx, rfl⟩
    | varDecl m y e | returnStmt m e => exact ⟨Expr.exists_access? h hx, rfl⟩
    | block | funDecl => exact absurd h List.not_mem_nil
    | whileLoop m c body =>
      obtain ⟨a, ha, hname⟩ := c.exists_access h hx
      exact ⟨⟨a, List.mem_append_left _ ha, hname⟩, rfl⟩
    | ifElse m c t e =>
      obtain ⟨a, ha, hname⟩ := c.exists_access h hx
      refine ⟨⟨a, ?_, hname⟩, rfl⟩
      cases e with
      | none => exact List.mem_append_left _ ha
      | some e => exact List.mem_append_left _ (List.mem_append_left _ ha)

end

/-- What a block or function declares directly stands among its statements. -/
theorem Stands.mem_inside {q stmts : Program Node} {p : Place} (h : Stands q p stmts)
    (hq : Program.Scoped q) {o : Stmt Node} (ho : p.owners[0]? = some o) {s : Stmt Node}
    (hs : s ∈ stmts) (hdeclared : s.declared? ≠ none) : s ∈ o.inside := by
  induction h with
  | top => cases ho
  | next _ ih => exact ih ho (List.mem_cons_of_mem _ hs)
  | block | function =>
    cases ho
    exact hs
  | @thenBranch p n c t e rest h _ =>
    have hif := (h.isScoped hq).1
    rw [List.mem_singleton.mp hs] at hdeclared
    cases e with
    | none => exact absurd hif.1 hdeclared
    | some e => exact absurd hif.1.1 hdeclared
  | elseBranch h _ =>
    rw [List.mem_singleton.mp hs] at hdeclared
    exact absurd (h.isScoped hq).1.2.1 hdeclared
  | loop h _ =>
    rw [List.mem_singleton.mp hs] at hdeclared
    exact absurd (h.isScoped hq).1.1 hdeclared

/-- Where no name is used before it is declared, an access comes to a scope that can have its name
only when a run has defined it there, or in the initializer of the variable itself. -/
theorem Site.mem_settled {q : Program Node} {site : Site} (hq : Program.Scoped q)
    (hfollow : ∀ body ∈ Program.bodies q, Program.UsesFollow body)
    (h : site ∈ Program.sites .top q) {n : Node} {x : Name}
    (hx : site.code.access? = some (n, x)) {d : Nat} {o : Stmt Node} {names : List Name}
    (ho : site.place.owners[d]? = some o) (hnames : site.place.settled[d]? = some names)
    (hown : x ∈ o.scopeNames) : x ∈ names ∨
      d = 0 ∧ ∃ s ∈ o.inside, s.declared? = some x ∧ s.declaredFunction? = none := by
  obtain ⟨p, s, rest, hstands, hsite⟩ := Program.exists_stands .top h
  obtain ⟨⟨a, ha, hname⟩, hfun⟩ := s.exists_access hsite hx
  have hplace : site.place.owners = p.owners ∧ site.place.settled = p.settled := by
    rcases s.eq_of_mem_ownSites hsite with rfl | ⟨e, rfl⟩ | ⟨m, y, e, e', -, rfl⟩ <;>
      exact ⟨rfl, rfl⟩
  rw [hplace.1] at ho
  rw [hplace.2] at hnames
  by_cases hs : d = 0 → s.declared? ≠ some x
  · left
    by_contra hx'
    exact (hstands.pending hq hfollow).unused ho hnames hown hx' hs a ha hname
  · obtain ⟨rfl, hdeclared⟩ := Classical.not_imp.mp hs
    have hdeclared : s.declared? = some x := not_not.mp hdeclared
    have hsome : s.declared? ≠ none := by
      rw [hdeclared]
      exact Option.some_ne_none x
    exact .inr ⟨rfl, s, hstands.mem_inside hq ho List.mem_cons_self hsome, hdeclared, hfun⟩

end Lox
