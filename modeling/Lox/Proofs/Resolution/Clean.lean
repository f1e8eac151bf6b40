import Lox.Proofs.Resolution.Follow

/-! Programs of which the resolver reports nothing. A block or function body in them declares no
name twice, and no name of a parameter. -/

namespace Lox

/-- The parameters whose scope a block or function shares. -/
def Stmt.parameters : Stmt Node → List Name
  | .funDecl _ _ params _ => params
  | _ => []

private theorem Program.findings_singleton (b : Bool) (scopes : List Scope) (s : Stmt Node) :
    (Program.findings b scopes [s]).1 = (s.findings b scopes).1 := by
  simp [Program.findings]

namespace Stands

variable {q stmts : Program Node} {p : Place}

/-- What the resolver finds at a place it finds in the program. -/
theorem findings_subset (h : Stands q p stmts) :
    (Program.findings p.inFunction p.scopes stmts).1 ⊆ (Program.findings false [] q).1 := by
  induction h with
  | top => exact List.Subset.refl _
  | next _ ih => exact (List.append_subset.mp ih).2
  | block _ ih => exact (List.append_subset.mp ih).1
  | function _ ih => exact (List.append_subset.mp (List.append_subset.mp ih).1).2
  | @thenBranch p n c t e rest _ ih =>
    have hif := (List.append_subset.mp ih).1
    rw [Program.findings_singleton]
    cases e with
    | none => exact (List.append_subset.mp hif).2
    | some e => exact (List.append_subset.mp (List.append_subset.mp hif).1).2
  | elseBranch _ ih =>
    have hif := (List.append_subset.mp ih).1
    rw [Program.findings_singleton]
    exact (List.append_subset.mp hif).2
  | loop _ ih =>
    have hwhile := (List.append_subset.mp ih).1
    rw [Program.findings_singleton]
    exact (List.append_subset.mp hwhile).2

/-- The blocks and functions around a place stand in the program. -/
theorem owner (h : Stands q p stmts) {d : Nat} {o : Stmt Node} (ho : p.owners[d]? = some o) :
    ∃ p' rest, Stands q p' (o :: rest) := by
  induction h generalizing d with
  | top => cases ho
  | next _ ih | thenBranch _ ih | elseBranch _ ih | loop _ ih => exact ih ho
  | block h ih | function h ih =>
    cases d with
    | zero =>
      cases ho
      exact ⟨_, _, h⟩
    | succ d => exact ih ho

end Stands

/-- The scope has the name, and a declaration of it will not be allowed. -/
def Scope.Taken (s : Scope) (x : Name) : Prop := x ∉ s.hoisted ∧ (s.state? x).isSome

namespace Scope

variable {s : Scope} {x y : Name}

theorem declare_of_taken (h : s.Taken x) : (s.declare x).1 = false := by
  obtain ⟨hhoisted, hsome⟩ := h
  rw [declare_fst, Bool.or_eq_false_iff]
  exact ⟨decide_eq_false hhoisted, by simpa using hsome⟩

theorem hoisted_declare_subset (s : Scope) (x : Name) :
    (s.declare x).2.hoisted.Sublist s.hoisted := by
  rw [declare]
  split
  · exact List.erase_sublist
  · split <;> exact List.Sublist.refl _

theorem isSome_state?_declared (h : (s.state? y).isSome) (x : Name) :
    (((s.declare x).2.define x).state? y).isSome := by
  obtain ⟨st, hst⟩ := Option.isSome_iff_exists.mp h
  rw [state?_define]
  split
  · rfl
  · rw [state?_declare_of_some hst]
    rfl

theorem Taken.declared (h : s.Taken y) (x : Name) : ((s.declare x).2.define x).Taken y :=
  ⟨fun hmem => h.1 ((hoisted_declare_subset s x).subset hmem), isSome_state?_declared h.2 x⟩

theorem taken_of_declare (hnodup : s.hoisted.Nodup) (x : Name) :
    ((s.declare x).2.define x).Taken x := by
  refine ⟨?_, ?_⟩
  · change x ∉ (s.declare x).2.hoisted
    rw [declare]
    split
    · exact fun hmem => (List.Nodup.mem_erase_iff hnodup).mp hmem |>.1 rfl
    · split <;> assumption
  · rw [state?_define, if_pos rfl]
    rfl

/-- Every hoisted name is there once, and the scope has it. -/
structure Fair (s : Scope) : Prop where
  nodup : s.hoisted.Nodup
  known : ∀ y ∈ s.hoisted, (s.state? y).isSome

theorem fair_of_hoisted_eq_nil (h : s.hoisted = []) : s.Fair := by
  constructor
  · rw [h]
    exact List.nodup_nil
  · intro y hy
    rw [h] at hy
    exact absurd hy List.not_mem_nil

theorem Fair.hoist (h : s.Fair) (x : Name) : (s.hoist x).Fair := by
  rw [Scope.hoist]
  split
  · exact h
  · rename_i hx
    constructor
    · exact List.nodup_cons.mpr ⟨fun hmem => hx (h.known x hmem), h.nodup⟩
    · intro y hy
      by_cases hyx : y = x
      · simp [state?, hyx]
      · have hmem : y ∈ s.hoisted := (List.mem_cons.mp hy).resolve_left hyx
        have hne : (y == x) = false := by simpa using hyx
        simpa [state?, List.lookup_cons, hne] using h.known y hmem

theorem Taken.hoist (h : s.Taken y) (x : Name) : (s.hoist x).Taken y := by
  obtain ⟨hhoisted, hsome⟩ := h
  rw [Scope.hoist]
  split
  · exact ⟨hhoisted, hsome⟩
  · rename_i hx
    have hyx : y ≠ x := fun heq => hx (heq ▸ hsome)
    have hne : (y == x) = false := by simpa using hyx
    refine ⟨?_, ?_⟩
    · exact fun hmem => hhoisted ((List.mem_cons.mp hmem).resolve_left hyx)
    · simpa [state?, List.lookup_cons, hne] using hsome

private theorem fair_withFunctions (h : s.Fair) (body : Program Node) :
    (s.withFunctions body).Fair := by
  unfold withFunctions
  induction body.filterMap Stmt.declaredFunction? generalizing s with
  | nil => exact h
  | cons x xs ih => exact ih (h.hoist x)

private theorem Taken.withFunctions (h : s.Taken y) (body : Program Node) :
    (s.withFunctions body).Taken y := by
  unfold Scope.withFunctions
  induction body.filterMap Stmt.declaredFunction? generalizing s with
  | nil => exact h
  | cons x xs ih => exact ih (h.hoist x)

private theorem hoisted_withParams (f : Name) (l : Location) (params : List Name)
    (h : s.hoisted = []) : (withParams f l params s).2.hoisted = [] := by
  induction params generalizing s with
  | nil => exact h
  | cons p rest ih =>
    refine ih ?_
    have hsublist := hoisted_declare_subset s p
    rw [h] at hsublist
    exact List.sublist_nil.mp hsublist

private theorem redeclared_mem (h : (s.declare x).1 = false) (l : Location) (outer : List Scope) :
    .fault (.redeclared x) l ∈ (declareInner x l (s :: outer)).1 := by
  rw [declareInner]
  cases hs : s.declare x with
  | mk allowed s' =>
    rw [hs] at h
    cases h
    exact List.mem_singleton_self _

end Scope

/-- A declaration that its scope does not allow is reported. -/
theorem Stmt.redeclared_mem_findings {s : Stmt Node} {x : Name} (hx : s.declared? = some x)
    {scope : Scope} (h : (scope.declare x).1 = false) (b : Bool) (outer : List Scope) :
    .fault (.redeclared x) s.note.location ∈ (s.findings b (scope :: outer)).1 := by
  cases s with
  | varDecl n y e =>
    cases hx
    exact List.mem_append_left _ (Scope.redeclared_mem h n.location outer)
  | funDecl n y params body =>
    cases hx
    refine List.mem_append_left _ (List.mem_append_left _ ?_)
    exact Scope.redeclared_mem h n.location outer
  | _ => cases hx

/-- Statements of which nothing is reported declare different names, and none that is taken. -/
theorem Program.nodup_declared {b : Bool} {s : Scope} {outer : List Scope} {stmts : Program Node}
    (hscoped : Program.Scoped stmts) (hnodup : s.hoisted.Nodup)
    (hclean : ∀ f l, .fault f l ∉ (Program.findings b (s :: outer) stmts).1) :
    (Program.declared stmts).Nodup ∧ ∀ x, s.Taken x → x ∉ Program.declared stmts := by
  induction stmts generalizing s with
  | nil => exact ⟨List.nodup_nil, fun x _ => List.not_mem_nil⟩
  | cons stmt rest ih =>
    have hfirst (f : ScopeFault) (l : Location) : .fault f l ∉ (stmt.findings b (s :: outer)).1 :=
      fun hmem => hclean f l (List.mem_append_left _ hmem)
    have hrest (f : ScopeFault) (l : Location) :
        .fault f l ∉ (Program.findings b (stmt.findings b (s :: outer)).2 rest).1 :=
      fun hmem => hclean f l (List.mem_append_right _ hmem)
    unfold Program.declared
    cases hd : stmt.declared? with
    | none =>
      rw [stmt.findings_of_not_declaration _ _ hscoped.1 hd] at hrest
      rw [List.filterMap_cons_none hd]
      exact ih hscoped.2 hnodup hrest
    | some y =>
      have hallowed : ¬ s.Taken y := fun htaken =>
        hfirst _ _ (Stmt.redeclared_mem_findings hd (Scope.declare_of_taken htaken) b outer)
      rw [Stmt.findings_of_declaration hd] at hrest
      have hnodup' : ((s.declare y).2.define y).hoisted.Nodup :=
        (Scope.hoisted_declare_subset s y).nodup hnodup
      obtain ⟨hdeclared, htaken⟩ := ih hscoped.2 hnodup' hrest
      rw [List.filterMap_cons_some hd]
      refine ⟨List.nodup_cons.mpr ⟨htaken y (Scope.taken_of_declare hnodup y), hdeclared⟩, ?_⟩
      intro x hx hmem
      rcases List.mem_cons.mp hmem with rfl | hmem
      · exact hallowed hx
      · exact htaken x (hx.declared y) hmem

/-- In a program of which nothing is reported, a block or function body declares different names,
and none of a parameter. -/
theorem Stands.nodup_inside {q rest : Program Node} {p : Place} {o : Stmt Node}
    (h : Stands q p (o :: rest)) (hq : Program.Scoped q)
    (hclean : ∀ f l, .fault f l ∉ (Program.findings false [] q).1) :
    (Program.declared o.inside).Nodup ∧ ∀ x ∈ o.parameters, x ∉ Program.declared o.inside := by
  have hscoped := (h.isScoped hq).1
  have hnothing : (Program.declared ([] : Program Node)).Nodup ∧
      ∀ x ∈ ([] : List Name), x ∉ Program.declared ([] : Program Node) :=
    ⟨List.nodup_nil, fun x hx => absurd hx List.not_mem_nil⟩
  cases o with
  | block n body =>
    have hfair : (Scope.empty.withFunctions body).Fair :=
      Scope.fair_withFunctions (Scope.fair_of_hoisted_eq_nil rfl) body
    have hinside (f : ScopeFault) (l : Location) :=
      fun hmem => hclean f l (h.block.findings_subset hmem)
    obtain ⟨hnodup, -⟩ := Program.nodup_declared hscoped hfair.nodup hinside
    exact ⟨hnodup, fun x hx => absurd hx List.not_mem_nil⟩
  | funDecl n f params body =>
    have hhoisted := Scope.hoisted_withParams f n.location params (s := Scope.empty) rfl
    have hfair := Scope.fair_withFunctions (Scope.fair_of_hoisted_eq_nil hhoisted) body
    have hinside (fault : ScopeFault) (l : Location) :=
      fun hmem => hclean fault l (h.function.findings_subset hmem)
    obtain ⟨hnodup, htaken⟩ := Program.nodup_declared hscoped hfair.nodup hinside
    refine ⟨hnodup, fun x hx => htaken x (Scope.Taken.withFunctions ⟨?_, ?_⟩ body)⟩
    · rw [hhoisted]
      exact List.not_mem_nil
    · rw [(Scope.state?_withParams f n.location params x).mpr (.inl hx)]
      rfl
  | _ => exact hnothing

/-- Where the declared names are different, a name has one declaration. -/
theorem Program.eq_of_declared {stmts : Program Node} (h : (Program.declared stmts).Nodup)
    {s t : Stmt Node} (hs : s ∈ stmts) (ht : t ∈ stmts) {x : Name} (hsx : s.declared? = some x)
    (htx : t.declared? = some x) : s = t := by
  induction stmts with
  | nil => exact absurd hs List.not_mem_nil
  | cons stmt rest ih =>
    have hrest : (Program.declared rest).Nodup :=
      h.sublist ((List.sublist_cons_self stmt rest).filterMap _)
    -- the name of the first statement is not declared again
    have hfirst {t : Stmt Node} (ht : t ∈ rest) (hx : stmt.declared? = some x) :
        t.declared? ≠ some x := by
      intro htx
      unfold Program.declared at h
      rw [List.filterMap_cons_some hx] at h
      exact (List.nodup_cons.mp h).1 (List.mem_filterMap.mpr ⟨t, ht, htx⟩)
    rcases List.mem_cons.mp hs with rfl | hs'
    · rcases List.mem_cons.mp ht with rfl | ht'
      · rfl
      · exact absurd htx (hfirst ht' hsx)
    · rcases List.mem_cons.mp ht with rfl | ht'
      · exact absurd hsx (hfirst hs' htx)
      · exact ih hrest hs' ht'

section

variable {q : Program Node} {known : List Name} {reportUndefined : Bool}

theorem no_fault_of_diagnostics (h : (resolve known reportUndefined q).diagnostics = [])
    (f : ScopeFault) (l : Location) : .fault f l ∉ (Program.findings false [] q).1 := by
  intro hmem
  have hreported : ⟨f, l⟩ ∈ (resolve known reportUndefined q).diagnostics := by
    rw [diagnostics_resolve]
    exact List.mem_filterMap.mpr ⟨.fault f l, hmem, rfl⟩
  rw [h] at hreported
  exact absurd hreported List.not_mem_nil

/-- Where nothing is reported, an access to a global names one that is known or that the program
declares. -/
theorem Site.mem_globals (h : (resolve known true q).diagnostics = []) {site : Site}
    (hsite : site ∈ Program.sites .top q) {n : Node} {x : Name}
    (hx : site.code.access? = some (n, x)) (hdepth : Scope.depth? x site.place.scopes = none) :
    x ∈ known ∨ x ∈ Program.declared q := by
  have haccess : site.access? = some (.access n x none) :=
    Site.access?_eq_some.mpr ⟨hx, hdepth.symm⟩
  have hfinding : .access n x none ∈ (Program.findings false [] q).1 :=
    (Program.access_mem_findings .top q).mpr ⟨site, hsite, haccess⟩
  by_contra hunknown
  have hnotMem := not_or.mp hunknown
  have hreported : ⟨.undefined x, n.location⟩ ∈ (resolve known true q).diagnostics := by
    rw [diagnostics_resolve]
    refine List.mem_filterMap.mpr ⟨.access n x none, hfinding, ?_⟩
    simp [Finding.diagnostic?, hnotMem]
  rw [h] at hreported
  exact absurd hreported List.not_mem_nil

/-- The only declaration of the name in the block or function is one of a function, and no parameter
has the name. -/
def Stmt.OnlyFunction (o : Stmt Node) (x : Name) (declaration : Stmt Node) : Prop :=
  declaration.declaredFunction? = some x ∧ declaration ∈ o.inside ∧
    (∀ s ∈ o.inside, s.declared? = some x → s = declaration) ∧ x ∉ o.parameters

/-- Where nothing is reported, a function that a block or function around a site declares directly
shares its name with no variable or parameter there. -/
theorem Site.onlyFunction (hq : Program.Scoped q)
    (h : (resolve known reportUndefined q).diagnostics = []) {site : Site}
    (hsite : site ∈ Program.sites .top q) {d : Nat} {o : Stmt Node}
    (ho : site.place.owners[d]? = some o) {x : Name} (hx : x ∈ o.functions) :
    ∃ declaration, o.OnlyFunction x declaration := by
  obtain ⟨p, s, rest, hstands, hown⟩ := Program.exists_stands .top hsite
  have howners : site.place.owners = p.owners := by
    rcases s.eq_of_mem_ownSites hown with rfl | ⟨e, rfl⟩ | ⟨m, y, e, e', -, rfl⟩ <;> rfl
  rw [howners] at ho
  obtain ⟨p', rest', howner⟩ := hstands.owner ho
  obtain ⟨hnodup, hparams⟩ := howner.nodup_inside hq (no_fault_of_diagnostics h)
  obtain ⟨declaration, hmem, hfun⟩ := List.mem_filterMap.mp hx
  have hdeclared : declaration.declared? = some x := by
    cases declaration with
    | funDecl n y params body => exact hfun
    | _ => cases hfun
  refine ⟨declaration, hfun, hmem, fun s hs hsx => ?_, fun hparam => ?_⟩
  · exact Program.eq_of_declared hnodup hs hmem hsx hdeclared
  · exact hparams x hparam (List.mem_filterMap.mpr ⟨declaration, hmem, hdeclared⟩)

end

end Lox
