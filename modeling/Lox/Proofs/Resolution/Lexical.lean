import Lox.Proofs.Resolution.Clean
import Lox.Proofs.Resolution.Parsed
import Lox.Proofs.Resolution.Split

/-! Lexical scoping. Which scope the resolver binds an access to can be told from the text alone:
the nearest block or function around it that has the name as a parameter, declares a function of the
name, or declares a variable of the name before the access. -/

namespace Lox

/-- A local scope around a place, as it is written: its parameters, the statements directly in it,
and those of them that end before the place. -/
structure LexicalScope where
  params : List Name
  body : Program Node
  behind : Program Node

/-- The scope has the name for what stands at the place. -/
def LexicalScope.Has (c : LexicalScope) (x : Name) : Prop :=
  x ∈ c.params ∨ (∃ n params body, .funDecl n x params body ∈ c.body) ∨
    ∃ n e, .varDecl n x e ∈ c.behind

/-- The scope that so many steps lead to is the nearest one that has the name; without a number,
none has it. -/
def LexicalScope.Nearest (scopes : List LexicalScope) (x : Name) : Option Nat → Prop
  | some h => (∃ c, scopes[h]? = some c ∧ c.Has x) ∧ ∀ c ∈ scopes.take h, ¬ c.Has x
  | none => ∀ c ∈ scopes, ¬ c.Has x

/-- The statement stands in the program inside these local scopes, innermost first. A block is a
scope, and the parameters and the body of a function are one. -/
inductive Inside (q : Program Node) : List LexicalScope → Stmt Node → Prop where
  | top {before s after} : q = before ++ s :: after → Inside q [] s
  | block {scopes n body before s after} : Inside q scopes (.block n body) →
      body = before ++ s :: after → Inside q (⟨[], body, before⟩ :: scopes) s
  | function {scopes n f params body before s after} : Inside q scopes (.funDecl n f params body) →
      body = before ++ s :: after → Inside q (⟨params, body, before⟩ :: scopes) s
  | thenBranch {scopes n c t e} : Inside q scopes (.ifElse n c t e) → Inside q scopes t
  | elseBranch {scopes n c t e} : Inside q scopes (.ifElse n c t (some e)) → Inside q scopes e
  | loop {scopes n c body} : Inside q scopes (.whileLoop n c body) → Inside q scopes body

/-- The accesses of the expression that a statement starts with or consists of, less those of the
statements in it. -/
def Stmt.ownAccesses {α : Type} : Stmt α → List (Access α)
  | .expression _ e | .print _ e | .ifElse _ e _ _ | .whileLoop _ e _ => e.accesses
  | .varDecl _ _ e | .returnStmt _ e => Expr.accesses? e
  | .block .. | .funDecl .. => []

namespace Scope

variable {s : Scope} {x y : Name}

theorem defined_declare_iff : (s.declare x).2.state? y = some .defined ↔
    s.state? y = some .defined :=
  ⟨defined_of_declare, fun h => state?_declare_of_some h x⟩

private theorem depth?_declareInner (x y : Name) (l : Location) (scopes : List Scope) :
    depth? y (declareInner x l scopes).2 = depth? y scopes := by
  cases scopes with
  | nil => rfl
  | cons s outer =>
    rw [declareInner]
    simp only [depth?, defined_declare_iff]

/-- No name of the scope waits for its initializer. -/
def Settled (s : Scope) : Prop := ∀ y, s.state? y ≠ some .declared

private theorem Settled.hoist (h : s.Settled) (x : Name) : (s.hoist x).Settled := by
  intro y
  rw [state?_hoist]
  split
  · simp
  · exact h y

private theorem Settled.withParams (h : s.Settled) (f : Name) (l : Location) (params : List Name) :
    (Scope.withParams f l params s).2.Settled := by
  induction params generalizing s with
  | nil => exact h
  | cons p rest ih =>
    have hparam : ((s.declare p).2.define p).Settled := by
      intro y
      rw [state?_define]
      by_cases hy : y = p
      · simp [hy]
      · rw [if_neg hy, state?_declare, if_neg fun hp => hy hp.1]
        exact h y
    exact ih hparam

private theorem Settled.defined_hoistAll_iff (h : s.Settled) (xs : List Name) :
    (xs.foldl (fun s x => s.hoist x) s).state? y = some .defined ↔
      s.state? y = some .defined ∨ y ∈ xs := by
  refine ⟨state?_of_hoistAll xs, ?_⟩
  rintro (hy | hy)
  · exact state?_hoistAll_of_some xs hy
  · induction xs generalizing s with
    | nil => exact absurd hy List.not_mem_nil
    | cons x xs ih =>
      rcases List.mem_cons.mp hy with rfl | hy
      · refine state?_hoistAll_of_some xs ?_
        rw [state?_hoist]
        cases hstate : s.state? y with
        | none => simp
        | some st =>
          cases st with
          | declared => exact absurd hstate (h y)
          | defined => simp
      · exact ih (h.hoist x) hy

private theorem Settled.defined_withFunctions_iff (h : s.Settled) (body : Program Node) :
    (s.withFunctions body).state? x = some .defined ↔
      s.state? x = some .defined ∨ ∃ n params inner, .funDecl n x params inner ∈ body := by
  have hfun : x ∈ body.filterMap Stmt.declaredFunction? ↔
      ∃ n params inner, .funDecl n x params inner ∈ body := by
    rw [List.mem_filterMap]
    constructor
    · rintro ⟨stmt, hmem, hx⟩
      cases stmt with
      | funDecl n y params inner =>
        cases hx
        exact ⟨n, params, inner, hmem⟩
      | _ => cases hx
    · rintro ⟨n, params, inner, hmem⟩
      exact ⟨_, hmem, rfl⟩
  rw [withFunctions, h.defined_hoistAll_iff, hfun]

end Scope

/-- The resolver takes just the names for usable that the written scope has. -/
def LexicalScope.Agrees (c : LexicalScope) (s : Scope) : Prop :=
  ∀ x, s.state? x = some .defined ↔ c.Has x

/-- The depth that the resolver finds is that of the nearest written scope that has the name. -/
theorem LexicalScope.nearest_depth? {scopes : List LexicalScope} {known : List Scope}
    (h : List.Forall₂ LexicalScope.Agrees scopes known) (x : Name) :
    LexicalScope.Nearest scopes x (Scope.depth? x known) := by
  induction h with
  | nil => exact fun c hc => absurd hc List.not_mem_nil
  | @cons c s scopes known hc _ ih =>
    rw [Scope.depth?]
    split
    · rename_i hx
      exact ⟨⟨c, rfl, (hc x).mp hx⟩, fun c' hc' => absurd hc' List.not_mem_nil⟩
    · rename_i hx
      have hnot : ¬ c.Has x := fun hhas => hx ((hc x).mpr hhas)
      cases hdepth : Scope.depth? x known with
      | none =>
        rw [hdepth] at ih
        exact List.forall_mem_cons.mpr ⟨hnot, ih⟩
      | some d =>
        rw [hdepth] at ih
        exact ⟨ih.1, List.forall_mem_cons.mpr ⟨hnot, ih.2⟩⟩

/-- A statement defines in the innermost scope what it declares, and nothing else. -/
theorem Stmt.defined_findings {s : Stmt Node} (hs : s.Scoped) (b : Bool) (scope : Scope)
    (outer : List Scope) : ∃ scope', (s.findings b (scope :: outer)).2 = scope' :: outer ∧
      ∀ x, scope'.state? x = some .defined ↔
        scope.state? x = some .defined ∨ s.declared? = some x := by
  cases hd : s.declared? with
  | none =>
    refine ⟨scope, s.findings_of_not_declaration b _ hs hd, fun x => ?_⟩
    simp
  | some y =>
    refine ⟨(scope.declare y).2.define y, s.findings_of_declaration hd b _, fun x => ?_⟩
    rw [Scope.state?_define]
    by_cases hx : x = y
    · simp [hx]
    · rw [if_neg hx, Scope.defined_declare_iff]
      simp [Ne.symm hx]

private theorem Stands.behind {q : Program Node} {p : Place} {before rest : Program Node}
    (h : Stands q p (before ++ rest)) (hq : Program.Scoped q) {scope : Scope} {outer : List Scope}
    (hscopes : p.scopes = scope :: outer) :
    ∃ p' scope', Stands q p' rest ∧ p'.scopes = scope' :: outer ∧
      ∀ x, scope'.state? x = some .defined ↔
        scope.state? x = some .defined ∨ x ∈ Program.declared before := by
  induction before generalizing p scope with
  | nil => exact ⟨p, scope, h, hscopes, fun x => by simp [Program.declared]⟩
  | cons s before ih =>
    have hs : s.Scoped := (h.isScoped hq).1
    obtain ⟨middle, hmiddle, hdefined⟩ := s.defined_findings hs p.inFunction scope outer
    rw [← hscopes] at hmiddle
    obtain ⟨p', scope', hstands, hscopes', hdefined'⟩ := ih h.next hmiddle
    refine ⟨p', scope', hstands, hscopes', fun x => ?_⟩
    rw [hdefined', hdefined, Program.declared, Program.declared, List.mem_filterMap,
      List.mem_filterMap, or_assoc]
    simp

private theorem Stands.behind_top {q : Program Node} {p : Place} {before rest : Program Node}
    (h : Stands q p (before ++ rest)) (hscopes : p.scopes = []) :
    ∃ p', Stands q p' rest ∧ p'.scopes = [] := by
  induction before generalizing p with
  | nil => exact ⟨p, h, hscopes⟩
  | cons s before ih =>
    refine ih h.next ?_
    change (s.findings p.inFunction p.scopes).2 = []
    rw [hscopes]
    exact s.findings_top p.inFunction

private theorem Program.mem_declared_iff {before : Program Node} {x : Name} :
    x ∈ Program.declared before ↔
      (∃ n params body, .funDecl n x params body ∈ before) ∨ ∃ n e, .varDecl n x e ∈ before := by
  rw [Program.declared, List.mem_filterMap]
  constructor
  · rintro ⟨s, hmem, hx⟩
    cases s with
    | varDecl n y e =>
      cases hx
      exact .inr ⟨n, e, hmem⟩
    | funDecl n y params body =>
      cases hx
      exact .inl ⟨n, params, body, hmem⟩
    | _ => cases hx
  · rintro (⟨n, params, body, hmem⟩ | ⟨n, e, hmem⟩)
    · exact ⟨_, hmem, rfl⟩
    · exact ⟨_, hmem, rfl⟩

namespace Inside

variable {q : Program Node} {scopes : List LexicalScope} {s : Stmt Node}

theorem isScoped (h : Inside q scopes s) (hq : Program.Scoped q) : s.Scoped := by
  have hmiddle {body before after : Program Node} {s : Stmt Node} (hbody : Program.Scoped body)
      (heq : body = before ++ s :: after) : s.Scoped := by
    subst heq
    exact (Program.Scoped.append.mp hbody).2.1
  induction h with
  | top heq => exact hmiddle hq heq
  | block _ heq ih | function _ heq ih => exact hmiddle ih heq
  | @thenBranch _ _ _ t e _ ih =>
    cases e with
    | none => exact ih.2
    | some e => exact ih.1.2
  | elseBranch _ ih => exact ih.2.2
  | loop _ ih => exact ih.2

private theorem mem_body {c : LexicalScope} (h : Inside q (c :: scopes) s) (hq : Program.Scoped q)
    (hdeclared : s.declared? ≠ none) : s ∈ c.body := by
  cases h with
  | block _ heq | function _ heq =>
    subst heq
    exact List.mem_append_right _ List.mem_cons_self
  | @thenBranch _ _ _ _ e h =>
    have hs := h.isScoped hq
    cases e with
    | none => exact absurd hs.1 hdeclared
    | some e => exact absurd hs.1.1 hdeclared
  | elseBranch h => exact absurd (h.isScoped hq).2.1 hdeclared
  | loop h => exact absurd (h.isScoped hq).1 hdeclared

/-- The body of a block or function up to a place in it: the scope has its parameters, its
functions, and the variables behind the place. -/
theorem agrees {base scope : Scope} {params : List Name} {body before after : Program Node}
    (hbody : body = before ++ after) (hbase : ∀ x, base.state? x = some .defined ↔ x ∈ params)
    (hsettled : base.Settled)
    (hscope : ∀ x, scope.state? x = some .defined ↔
      (base.withFunctions body).state? x = some .defined ∨ x ∈ Program.declared before) :
    LexicalScope.Agrees ⟨params, body, before⟩ scope := by
  intro x
  have hbefore : (∃ n ps inner, Stmt.funDecl n x ps inner ∈ before) →
      ∃ n ps inner, Stmt.funDecl n x ps inner ∈ body := by
    rintro ⟨n, ps, inner, hmem⟩
    exact ⟨n, ps, inner, hbody ▸ List.mem_append_left after hmem⟩
  rw [hscope, hsettled.defined_withFunctions_iff, hbase, Program.mem_declared_iff, or_assoc]
  refine or_congr_right ?_
  rw [← or_assoc, or_iff_left_of_imp hbefore]

private theorem stands (h : Inside q scopes s) (hq : Program.Scoped q) :
    ∃ p rest, Stands q p (s :: rest) ∧ List.Forall₂ LexicalScope.Agrees scopes p.scopes := by
  induction h with
  | @top before s after heq =>
    have htop : Stands q .top (before ++ s :: after) := heq ▸ .top
    obtain ⟨p, hstands, hscopes⟩ := htop.behind_top rfl
    exact ⟨p, after, hstands, hscopes ▸ .nil⟩
  | @block scopes n body before s after h heq ih =>
    obtain ⟨p, rest, hstands, hagrees⟩ := ih
    have hbody : Stands q (p.block n body) (before ++ s :: after) := heq ▸ hstands.block
    obtain ⟨p', scope, hstands', hscopes, hdefined⟩ := hbody.behind hq rfl
    refine ⟨p', after, hstands', ?_⟩
    rw [hscopes]
    exact .cons (agrees heq (fun x => by simp) (fun x => by simp) hdefined) hagrees
  | @function scopes n f params body before s after h heq ih =>
    obtain ⟨p, rest, hstands, hagrees⟩ := ih
    have hbody : Stands q (p.function n f params body) (before ++ s :: after) :=
      heq ▸ hstands.function
    obtain ⟨p', scope, hstands', hscopes, hdefined⟩ := hbody.behind hq rfl
    refine ⟨p', after, hstands', ?_⟩
    rw [hscopes]
    refine .cons (agrees heq (fun x => ?_) ?_ hdefined) ?_
    · rw [Scope.state?_withParams]
      simp
    · exact Scope.Settled.withParams (fun y => by simp) f n.location params
    · -- the name of the function itself was defined before, as the scope declares it directly
      change List.Forall₂ _ _ ((Stmt.funDecl n f params body).findings p.inFunction p.scopes).2
      generalize p.scopes = known at hagrees
      cases hagrees with
      | nil =>
        rw [Stmt.findings_top]
        exact .nil
      | @cons c outer cs outers hc hcs =>
        obtain ⟨scope', hscope', hdefined'⟩ :=
          (Stmt.funDecl n f params body).defined_findings (h.isScoped hq) p.inFunction outer outers
        rw [hscope']
        refine .cons (fun x => ?_) hcs
        rw [hdefined', hc x]
        refine or_iff_left_of_imp fun hx => ?_
        cases hx
        exact .inr (.inl ⟨n, params, body, h.mem_body hq (by simp [Stmt.declared?])⟩)
  | @thenBranch scopes n c t e h ih =>
    obtain ⟨p, rest, hstands, hagrees⟩ := ih
    exact ⟨p, [], hstands.thenBranch, hagrees⟩
  | @elseBranch scopes n c t e h ih =>
    obtain ⟨p, rest, hstands, hagrees⟩ := ih
    have ht := (h.isScoped hq).1
    refine ⟨p.besides t, [], hstands.elseBranch, ?_⟩
    unfold Place.besides
    dsimp only
    rw [t.findings_of_not_declaration _ _ ht.2 ht.1]
    exact hagrees
  | loop h ih =>
    obtain ⟨p, rest, hstands, hagrees⟩ := ih
    exact ⟨p, [], hstands.loop, hagrees⟩

end Inside

section

variable {q : Program Node} {a : Access Node}

mutual

theorem Stmt.exists_inside : ∀ {scopes : List LexicalScope} (s : Stmt Node), Inside q scopes s →
    a ∈ s.accesses → ∃ scopes' s', Inside q scopes' s' ∧ a ∈ s'.ownAccesses
  | scopes, .expression .., h, ha | scopes, .print .., h, ha | scopes, .varDecl .., h, ha
  | scopes, .returnStmt .., h, ha => ⟨scopes, _, h, ha⟩
  | scopes, .block n body, h, ha => by
    refine Program.exists_inside body (fun s hs => ?_) ha
    obtain ⟨before, after, heq⟩ := List.append_of_mem hs
    exact ⟨_, h.block heq⟩
  | scopes, .funDecl n f params body, h, ha => by
    refine Program.exists_inside body (fun s hs => ?_) ha
    obtain ⟨before, after, heq⟩ := List.append_of_mem hs
    exact ⟨_, h.function heq⟩
  | scopes, .ifElse n c t none, h, ha => by
    rcases List.mem_append.mp ha with ha | ha
    · exact ⟨scopes, _, h, ha⟩
    · exact Stmt.exists_inside t h.thenBranch ha
  | scopes, .ifElse n c t (some e), h, ha => by
    rcases List.mem_append.mp ha with ha | ha
    · rcases List.mem_append.mp ha with ha | ha
      · exact ⟨scopes, _, h, ha⟩
      · exact Stmt.exists_inside t h.thenBranch ha
    · exact Stmt.exists_inside e h.elseBranch ha
  | scopes, .whileLoop n c body, h, ha => by
    rcases List.mem_append.mp ha with ha | ha
    · exact ⟨scopes, _, h, ha⟩
    · exact Stmt.exists_inside body h.loop ha

theorem Program.exists_inside : ∀ stmts : Program Node,
    (∀ s ∈ stmts, ∃ scopes, Inside q scopes s) → a ∈ Program.accesses stmts →
      ∃ scopes s, Inside q scopes s ∧ a ∈ s.ownAccesses
  | [], _, ha => absurd ha List.not_mem_nil
  | s :: rest, h, ha => by
    rcases List.mem_append.mp ha with ha | ha
    · obtain ⟨scopes, hs⟩ := h s List.mem_cons_self
      exact Stmt.exists_inside s hs ha
    · exact Program.exists_inside rest (fun s hs => h s (List.mem_cons_of_mem _ hs)) ha

end

private theorem Stmt.ownAccess_mem_findings {s : Stmt Node} (ha : a ∈ s.ownAccesses) (b : Bool)
    (scopes : List Scope) :
    .access a.note a.name (Scope.depth? a.name scopes) ∈ (s.findings b scopes).1 := by
  have hexpr {e : Expr Node} (ha : a ∈ e.accesses) (scopes : List Scope) :
      .access a.note a.name (Scope.depth? a.name scopes) ∈ e.findings scopes := by
    rw [e.findings_eq_map_accesses]
    exact List.mem_map.mpr ⟨a, ha, rfl⟩
  have hexpr? {e : Option (Expr Node)} (ha : a ∈ Expr.accesses? e) (scopes : List Scope) :
      .access a.note a.name (Scope.depth? a.name scopes) ∈ Expr.findings? scopes e := by
    cases e with
    | none => exact absurd ha List.not_mem_nil
    | some e => exact hexpr ha scopes
  cases s with
  | expression n e | print n e => exact hexpr ha scopes
  | varDecl n x e =>
    refine List.mem_append_right _ ?_
    rw [← Scope.depth?_declareInner x a.name n.location scopes]
    exact hexpr? ha _
  | ifElse n c t e =>
    cases e with
    | none => exact List.mem_append_left _ (hexpr ha scopes)
    | some e => exact List.mem_append_left _ (List.mem_append_left _ (hexpr ha scopes))
  | whileLoop n c body => exact List.mem_append_left _ (hexpr ha scopes)
  | returnStmt n e => exact List.mem_append_right _ (hexpr? ha scopes)
  | block | funDecl => exact absurd ha List.not_mem_nil

end

section

variable {p : Program Node} {known : List Name} {reportUndefined : Bool}

/-- The table has entries for the accesses of a program, and for no other nodes of it. -/
theorem resolve_entry_iff (hkeys : (Program.keys p).Nodup) {site : Site}
    (hsite : site ∈ Program.sites .top p) :
    ((resolve known reportUndefined p).table[site.key]?).isSome ↔
      site.code.access?.isSome := by
  constructor
  · intro hentry
    by_contra hnone
    refine absurd hentry ?_
    rw [Bool.not_eq_true, Option.isSome_eq_false_iff, Option.isNone_iff_eq_none, table_resolve]
    refine ResolutionTable.getElem?_ofFindings_eq_none fun n x d hmem hkey => ?_
    obtain ⟨other, hother, haccess⟩ := (Program.access_mem_findings .top _).mp hmem
    have hsame : other = site :=
      Site.eq_of_key (Program.nodup_sites .top hkeys) hother hsite
        ((Site.key_of_access? haccess).trans hkey)
    rw [hsame] at haccess
    rw [(Site.access?_eq_some.mp haccess).1] at hnone
    exact hnone rfl
  · intro haccess
    obtain ⟨⟨n, x⟩, hx⟩ := Option.isSome_iff_exists.mp haccess
    have hentry : (resolve known reportUndefined p).table[n.key]? = some _ :=
      resolve_table hkeys hsite (Site.access?_eq_some.mpr ⟨hx, rfl⟩)
    unfold Site.key
    rw [Code.node_of_access? hx, hentry]
    rfl

/-- The table binds an access to the nearest scope around it that has the name. -/
theorem Inside.resolve_ownAccess {scopes : List LexicalScope} {s : Stmt Node}
    (hkeys : (Program.keys p).Nodup) (h : Inside p scopes s) (hscoped : Program.Scoped p)
    {a : Access Node} (ha : a ∈ s.ownAccesses) : ∃ depth,
      (resolve known reportUndefined p).table[a.note.key]? =
        some (.ofDepth depth) ∧ LexicalScope.Nearest scopes a.name depth := by
  obtain ⟨place, rest, hstands, hagrees⟩ := h.stands hscoped
  have hfinding : .access a.note a.name (Scope.depth? a.name place.scopes) ∈
      (Program.findings false [] p).1 :=
    hstands.findings_subset (List.mem_append_left _ (s.ownAccess_mem_findings ha _ _))
  exact ⟨_, resolve_table_of_mem hkeys hfinding, LexicalScope.nearest_depth? hagrees a.name⟩

private theorem Site.exists_inside {site : Site} (hsite : site ∈ Program.sites .top p)
    {n : Node} {x : Name} (hx : site.code.access? = some (n, x)) :
    ∃ scopes s a, Inside p scopes s ∧ a ∈ s.ownAccesses ∧ a.note = n ∧
      a.name = x := by
  have hfinding := (Program.access_mem_findings .top p).mpr
    ⟨site, hsite, Site.access?_eq_some.mpr ⟨hx, rfl⟩⟩
  obtain ⟨a, ha, hnote, hname⟩ := (Program.exists_access_finding false [] _).mp ⟨_, hfinding⟩
  obtain ⟨scopes, s, hinside, hown⟩ := Program.exists_inside p
    (fun s hs => ⟨[], .top (List.append_of_mem hs).choose_spec.choose_spec⟩) ha
  exact ⟨scopes, s, a, hinside, hown, hnote, hname⟩

end

/-- The table that the resolver makes of a source text has an entry for every node that reads or
writes a variable, and for no other one. The entry of an access is the least number of scopes to
skip so that the next one has the name for the place of the access, or says that the variable is
global if no scope has it. -/
theorem resolve_lexical {k : Nat} {source : Text} {p : Program Node}
    (hparse : parseKeyed? k source = .ok p) (known : List Name) (reportUndefined : Bool) :
    let table := (resolve known reportUndefined p).table
    (∀ site ∈ Program.sites .top p, (table[site.key]?).isSome ↔ site.code.access?.isSome) ∧
    (∀ key, (table[key]?).isSome → ∃ site ∈ Program.sites .top p, site.key = key) ∧
    (∀ site ∈ Program.sites .top p, ∀ n x, site.code.access? = some (n, x) →
      ∃ scopes s a, Inside p scopes s ∧ a ∈ s.ownAccesses ∧ a.note = n ∧ a.name = x) ∧
    ∀ scopes s, Inside p scopes s → ∀ a ∈ s.ownAccesses, ∃ depth,
      table[a.note.key]? = some (.ofDepth depth) ∧ LexicalScope.Nearest scopes a.name depth := by
  intro table
  have hscoped : Program.Scoped p := scoped_of_parseKeyed? hparse
  have hkeys := nodup_keys_of_parseKeyed? hparse
  refine ⟨fun site hsite => resolve_entry_iff hkeys hsite, fun key hentry => ?_,
    fun site hsite n x hx => Site.exists_inside hsite hx,
    fun scopes s hinside a ha => hinside.resolve_ownAccess hkeys hscoped ha⟩
  by_contra hnone
  refine absurd hentry ?_
  change ¬ (resolve known reportUndefined p).table[key]?.isSome
  rw [Bool.not_eq_true, Option.isSome_eq_false_iff, Option.isNone_iff_eq_none, table_resolve]
  refine ResolutionTable.getElem?_ofFindings_eq_none fun n x d hmem hkey => hnone ?_
  obtain ⟨site, hsite, haccess⟩ := (Program.access_mem_findings .top _).mp hmem
  exact ⟨site, hsite, (Site.key_of_access? haccess).trans hkey⟩

/-- A function of a block is found there before its declaration, and past the parameter of another
function around the block. -/
theorem resolve_lexical_hoisted : ∃ p,
    parseKeyed? 1 "fun f(g) { var b = b; { b = g; fun g() { return b; } var b = b; } }" = .ok p ∧
    let table := (resolve ["clock"] true p).table
    ∃ scopes s a c, Inside p scopes s ∧ a ∈ s.ownAccesses ∧ a.name = ("g" : Name) ∧
      table[a.note.key]? = some (.atDepth 0) ∧ scopes[0]? = some c ∧ c.Has "g" := by
  obtain ⟨p, hparse, hsites⟩ : ∃ p,
      parseKeyed? 1 "fun f(g) { var b = b; { b = g; fun g() { return b; } var b = b; } }" = .ok p ∧
      ((Program.sites .top p).any fun site => site.code.access?.any fun a =>
        a.2 = ("g" : Name) ∧
          (resolve ["clock"] true p).table[a.1.key]? = some (.atDepth 0)) = true :=
    exists_parseKeyed?_of_any (by decide +kernel)
  refine ⟨p, hparse, ?_⟩
  intro table
  obtain ⟨site, hsite, haccess⟩ := List.any_eq_true.mp hsites
  obtain ⟨⟨n, x⟩, hx, htest⟩ := (Option.any_eq_true _ _).mp haccess
  obtain ⟨rfl, hdepth⟩ := of_decide_eq_true htest
  obtain ⟨-, -, hplaced, hbound⟩ := resolve_lexical hparse ["clock"] true
  obtain ⟨scopes, s, a, hinside, ha, rfl, hname⟩ := hplaced site hsite n _ hx
  obtain ⟨depth, hentry, hnearest⟩ := hbound scopes s hinside a ha
  have hzero : depth = some 0 := by
    rw [hdepth] at hentry
    cases depth with
    | none => cases hentry
    | some d =>
      cases hentry
      rfl
  rw [hzero] at hnearest
  obtain ⟨⟨c, hc, hhas⟩, -⟩ := hnearest
  exact ⟨scopes, s, a, c, hinside, ha, hname, hdepth, hc, hname ▸ hhas⟩

end Lox
