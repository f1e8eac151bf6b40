import Lox.Proofs.Resolution.Site

/-! The statements that stand at a place of a program. What the walk of the resolver keeps from
place to place is proved by induction on how it comes to a place. -/

namespace Lox

mutual

/-- The names that a statement declares in the scope in which it stands. -/
def Stmt.ownNames : Stmt Node → List Name
  | .varDecl _ x _ => [x]
  | .funDecl _ x _ _ => [x]
  | .ifElse _ _ t none => t.ownNames
  | .ifElse _ _ t (some e) => t.ownNames ++ e.ownNames
  | .whileLoop _ _ body => body.ownNames
  | _ => []

def Program.ownNames : Program Node → List Name
  | [] => []
  | s :: rest => s.ownNames ++ Program.ownNames rest

end

/-- The names that a block or a function can have in the scope that it opens. -/
def Stmt.scopeNames : Stmt Node → List Name
  | .block _ body => Program.ownNames body
  | .funDecl _ _ params body => params ++ Program.ownNames body
  | _ => []

/-- The statements of the scope that a block or a function opens. -/
def Stmt.inside : Stmt Node → Program Node
  | .block _ body => body
  | .funDecl _ _ _ body => body
  | _ => []

/-- Walking a program, the resolver comes to the place with these statements ahead of it. -/
inductive Stands (q : Program Node) : Place → Program Node → Prop where
  | top : Stands q .top q
  | next {p s rest} : Stands q p (s :: rest) → Stands q (p.after s) rest
  | block {p n body rest} : Stands q p (.block n body :: rest) → Stands q (p.block n body) body
  | function {p n x params body rest} : Stands q p (.funDecl n x params body :: rest) →
      Stands q (p.function n x params body) body
  | thenBranch {p n c t e rest} : Stands q p (.ifElse n c t e :: rest) → Stands q p [t]
  | elseBranch {p n c t e rest} : Stands q p (.ifElse n c t (some e) :: rest) →
      Stands q (p.besides t) [e]
  | loop {p n c body rest} : Stands q p (.whileLoop n c body :: rest) → Stands q p [body]

/-- The sites of a statement less those of the statements in it. -/
def Stmt.ownSites (p : Place) (s : Stmt Node) : List Site :=
  ⟨.stmt s, p⟩ ::
    match s with
    | .expression _ e | .print _ e => e.sites p
    | .varDecl n x e => Expr.sites? (p.initializer n x) e
    | .ifElse _ c _ _ | .whileLoop _ c _ => c.sites p
    | .returnStmt _ e => Expr.sites? p e
    | .block .. | .funDecl .. => []

section

variable {q : Program Node} {p : Place} {site : Site}

mutual

theorem Expr.eq_of_mem_sites : ∀ e : Expr Node, site ∈ e.sites p → ∃ e', site = ⟨.expr e', p⟩
  | .binary _ l _ r, h => by
    rcases List.mem_cons.mp h with rfl | h
    · exact ⟨_, rfl⟩
    · rcases List.mem_append.mp h with h | h
      · exact l.eq_of_mem_sites h
      · exact r.eq_of_mem_sites h
  | .grouping _ e, h => by
    rcases List.mem_cons.mp h with rfl | h
    · exact ⟨_, rfl⟩
    · exact e.eq_of_mem_sites h
  | .literal .., h => ⟨_, List.mem_singleton.mp h⟩
  | .unary _ _ e, h => by
    rcases List.mem_cons.mp h with rfl | h
    · exact ⟨_, rfl⟩
    · exact e.eq_of_mem_sites h
  | .reference .., h => ⟨_, List.mem_singleton.mp h⟩
  | .assign _ _ e, h => by
    rcases List.mem_cons.mp h with rfl | h
    · exact ⟨_, rfl⟩
    · exact e.eq_of_mem_sites h
  | .logical _ l _ r, h => by
    rcases List.mem_cons.mp h with rfl | h
    · exact ⟨_, rfl⟩
    · rcases List.mem_append.mp h with h | h
      · exact l.eq_of_mem_sites h
      · exact r.eq_of_mem_sites h
  | .call _ c args, h => by
    rcases List.mem_cons.mp h with rfl | h
    · exact ⟨_, rfl⟩
    · rcases List.mem_append.mp h with h | h
      · exact c.eq_of_mem_sites h
      · exact Expr.eq_of_mem_sitesAll args h

theorem Expr.eq_of_mem_sitesAll :
    ∀ es : List (Expr Node), site ∈ Expr.sitesAll p es → ∃ e', site = ⟨.expr e', p⟩
  | [], h => absurd h List.not_mem_nil
  | e :: rest, h => by
    rcases List.mem_append.mp h with h | h
    · exact e.eq_of_mem_sites h
    · exact Expr.eq_of_mem_sitesAll rest h

end

theorem Expr.site_mem (e : Expr Node) : ⟨.expr e, p⟩ ∈ e.sites p := by
  cases e <;> exact List.mem_cons_self

theorem Stmt.site_mem (s : Stmt Node) : ⟨.stmt s, p⟩ ∈ s.sites p := by
  cases s with
  | ifElse n c t e => cases e <;> exact List.mem_cons_self
  | _ => exact List.mem_cons_self

mutual

/-- Every site belongs to a statement that stands somewhere. -/
theorem Stmt.exists_stands :
    ∀ {p : Place} {s : Stmt Node} {rest : Program Node}, Stands q p (s :: rest) → site ∈ s.sites p →
      ∃ p' s' rest', Stands q p' (s' :: rest') ∧ site ∈ s'.ownSites p'
  | p, .expression .., rest, h, hs => ⟨p, _, rest, h, hs⟩
  | p, .print .., rest, h, hs => ⟨p, _, rest, h, hs⟩
  | p, .varDecl .., rest, h, hs => ⟨p, _, rest, h, hs⟩
  | p, .returnStmt .., rest, h, hs => ⟨p, _, rest, h, hs⟩
  | p, .block n body, rest, h, hs => by
    rcases List.mem_cons.mp hs with rfl | hs
    · exact ⟨p, _, rest, h, List.mem_cons_self⟩
    · exact Program.exists_stands h.block hs
  | p, .ifElse n c t none, rest, h, hs => by
    rw [Stmt.sites, ← List.cons_append] at hs
    rcases List.mem_append.mp hs with hs | hs
    · exact ⟨p, _, rest, h, hs⟩
    · exact Stmt.exists_stands h.thenBranch hs
  | p, .ifElse n c t (some e), rest, h, hs => by
    rw [Stmt.sites, List.append_assoc, ← List.cons_append] at hs
    rcases List.mem_append.mp hs with hs | hs
    · exact ⟨p, _, rest, h, hs⟩
    · rcases List.mem_append.mp hs with hs | hs
      · exact Stmt.exists_stands h.thenBranch hs
      · exact Stmt.exists_stands h.elseBranch hs
  | p, .whileLoop n c body, rest, h, hs => by
    rw [Stmt.sites, ← List.cons_append] at hs
    rcases List.mem_append.mp hs with hs | hs
    · exact ⟨p, _, rest, h, hs⟩
    · exact Stmt.exists_stands h.loop hs
  | p, .funDecl n x params body, rest, h, hs => by
    rcases List.mem_cons.mp hs with rfl | hs
    · exact ⟨p, _, rest, h, List.mem_cons_self⟩
    · exact Program.exists_stands h.function hs

theorem Program.exists_stands :
    ∀ {p : Place} {stmts : Program Node}, Stands q p stmts → site ∈ Program.sites p stmts →
      ∃ p' s' rest', Stands q p' (s' :: rest') ∧ site ∈ s'.ownSites p'
  | _, [], _, hs => absurd hs List.not_mem_nil
  | _, s :: rest, h, hs => by
    rcases List.mem_append.mp hs with hs | hs
    · exact Stmt.exists_stands h hs
    · exact Program.exists_stands h.next hs

end

end

namespace Scope

theorem length_declareInner (x : Name) (l : Location) (scopes : List Scope) :
    (declareInner x l scopes).2.length = scopes.length := by
  cases scopes <;> rfl

private theorem length_defineInner (x : Name) (scopes : List Scope) :
    (defineInner x scopes).length = scopes.length := by
  cases scopes <;> rfl

end Scope

mutual

theorem Stmt.length_findings (b : Bool) (scopes : List Scope) :
    ∀ s : Stmt Node, (s.findings b scopes).2.length = scopes.length
  | .expression .. | .print .. | .block .. | .returnStmt .. => rfl
  | .varDecl n x e => by
    simp [Stmt.findings, Scope.length_defineInner, Scope.length_declareInner]
  | .ifElse _ c t none => t.length_findings b scopes
  | .ifElse _ c t (some e) =>
    (e.length_findings b _).trans (t.length_findings b scopes)
  | .whileLoop _ c body => body.length_findings b scopes
  | .funDecl n x params body => by
    simp [Stmt.findings, Scope.length_defineInner, Scope.length_declareInner]

end

namespace Stands

variable {q stmts : Program Node} {p : Place}

/-- At every place there are as many scopes as there are blocks and functions around it. -/
theorem lengths (h : Stands q p stmts) :
    p.scopes.length = p.owners.length ∧ p.settled.length = p.owners.length := by
  have hsettle (x : Option Name) (settled : List (List Name)) :
      (Place.settle x settled).length = settled.length := by
    cases x with
    | none => rfl
    | some x => cases settled <;> rfl
  induction h with
  | top => exact ⟨rfl, rfl⟩
  | next _ ih => exact ⟨(Stmt.length_findings _ _ _).trans ih.1, (hsettle _ _).trans ih.2⟩
  | block _ ih => simp [Place.block, ih]
  | function _ ih =>
    simp [Place.function, Place.after, Stmt.length_findings, hsettle, ih]
  | thenBranch _ ih => exact ih
  | elseBranch _ ih => exact ⟨(Stmt.length_findings _ _ _).trans ih.1, ih.2⟩
  | loop _ ih => exact ih

/-- What is declared at a place belongs to the innermost block or function around it. -/
theorem ownNames_subset (h : Stands q p stmts) {o : Stmt Node} {outer : List (Stmt Node)}
    (ho : p.owners = o :: outer) : Program.ownNames stmts ⊆ o.scopeNames := by
  induction h generalizing o outer with
  | top => cases ho
  | next _ ih => exact (List.append_subset.mp (ih ho)).2
  | block =>
    cases ho
    exact List.Subset.refl _
  | function =>
    cases ho
    exact List.subset_append_right _ _
  | @thenBranch _ _ _ t e _ _ ih =>
    have hif := (List.append_subset.mp (ih ho)).1
    cases e with
    | none => simpa [Program.ownNames, Stmt.ownNames] using hif
    | some e => simpa [Program.ownNames] using (List.append_subset.mp hif).1
  | @elseBranch _ _ _ t e _ _ ih =>
    have hif := (List.append_subset.mp (ih ho)).1
    simpa [Program.ownNames] using (List.append_subset.mp hif).2
  | loop _ ih =>
    have hwhile := (List.append_subset.mp (ih ho)).1
    simpa [Program.ownNames, Stmt.ownNames] using hwhile

/-- What a statement declares belongs to the innermost block or function around it. -/
theorem declared_mem {s : Stmt Node} {rest : Program Node} (h : Stands q p (s :: rest)) {x : Name}
    (hx : s.declared? = some x) {o : Stmt Node} {outer : List (Stmt Node)}
    (ho : p.owners = o :: outer) : x ∈ o.scopeNames := by
  refine h.ownNames_subset ho (List.mem_append_left _ ?_)
  cases s with
  | varDecl n y e => cases hx; exact List.mem_singleton_self _
  | funDecl n y params body => cases hx; exact List.mem_singleton_self _
  | _ => cases hx

end Stands

/-- The expressions of a statement stand at its place, but for an initializer, which stands where
the variable is declared and not yet defined. -/
theorem Stmt.eq_of_mem_ownSites {s : Stmt Node} {p : Place} {site : Site}
    (h : site ∈ s.ownSites p) : site = ⟨.stmt s, p⟩ ∨ (∃ e, site = ⟨.expr e, p⟩) ∨
      ∃ n x e e', s = .varDecl n x (some e) ∧ site = ⟨.expr e', p.initializer n x⟩ := by
  rcases List.mem_cons.mp h with hsite | h
  · exact .inl hsite
  · right
    cases s with
    | expression n e | print n e => exact .inl (e.eq_of_mem_sites h)
    | ifElse n c t e | whileLoop n c body => exact .inl (c.eq_of_mem_sites h)
    | block | funDecl => exact absurd h List.not_mem_nil
    | returnStmt n e =>
      cases e with
      | none => exact absurd h List.not_mem_nil
      | some e => exact .inl (e.eq_of_mem_sites h)
    | varDecl n x e =>
      cases e with
      | none => exact absurd h List.not_mem_nil
      | some e =>
        obtain ⟨e', he'⟩ := e.eq_of_mem_sites h
        exact .inr ⟨n, x, e, e', rfl, he'⟩

namespace Site

variable {q : Program Node} {site : Site}

theorem lengths (h : site ∈ Program.sites .top q) :
    site.place.scopes.length = site.place.owners.length ∧
      site.place.settled.length = site.place.owners.length := by
  obtain ⟨p, s, rest, hstands, hsite⟩ := Program.exists_stands .top h
  obtain ⟨hscopes, hsettled⟩ := hstands.lengths
  rcases s.eq_of_mem_ownSites hsite with rfl | ⟨e, rfl⟩ | ⟨n, x, e, e', -, rfl⟩
  · exact ⟨hscopes, hsettled⟩
  · exact ⟨hscopes, hsettled⟩
  · exact ⟨(Scope.length_declareInner _ _ _).trans hscopes, hsettled⟩

theorem declared_mem {s : Stmt Node} {p : Place} (h : ⟨.stmt s, p⟩ ∈ Program.sites .top q)
    {x : Name} (hx : s.declared? = some x) {o : Stmt Node} {outer : List (Stmt Node)}
    (ho : p.owners = o :: outer) : x ∈ o.scopeNames := by
  obtain ⟨p', s', rest, hstands, hsite⟩ := Program.exists_stands .top h
  rcases s'.eq_of_mem_ownSites hsite with heq | ⟨e, heq⟩ | ⟨n, y, e, e', -, heq⟩
  · cases heq
    exact hstands.declared_mem hx ho
  · cases heq
  · cases heq

end Site

end Lox
