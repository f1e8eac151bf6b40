import Lox.Proofs.Resolution.Clean
import Lox.Proofs.Resolution.Split
import Lox.Proofs.Tree.Load

/-! What the resolver reports, read off the text. A walk of the tree passes by declarations,
parameters, returns and accesses, and each of these gives rise to a diagnostic or not by what is
written around it; how the scopes of the resolver change on the way does not matter. -/

namespace Lox

/-- What the walk of a program passes by. -/
inductive Passage where
  /-- A variable or function is declared. In a local scope, `earlier` are the parameters of that
  scope and the names that are declared earlier in it. -/
  | declaration (node : Node) (name : Name) (earlier : Option (List Name))
  | parameter (node : Node) (function name : Name) (earlier : List Name)
  | returning (node : Node) (inFunction : Bool)
  | access (access : Access Node)

namespace Passage

/-- The parameters of a function, each with those before it. -/
def parameters (n : Node) (f : Name) (earlier : List Name) : List Name → List Passage
  | [] => []
  | p :: rest => .parameter n f p earlier :: parameters n f (p :: earlier) rest

/-- What there is to report, if it is known which accesses are to undefined variables. -/
def diagnostic? (undefined : Access Node → Bool) : Passage → Option Diagnostic
  | declaration n x earlier =>
    if earlier.any (·.contains x) then some ⟨.redeclared x, n.location⟩ else none
  | parameter n f p earlier =>
    if earlier.contains p then some ⟨.duplicateParameter p f, n.location⟩ else none
  | returning n inFunction => if inFunction then none else some ⟨.topLevelReturn, n.location⟩
  | access a => if undefined a then some ⟨.undefined a.name, a.note.location⟩ else none

end Passage

mutual

/-- What the walk passes by in a statement: a declaration before its initializer, or before its
parameters and its body; a return before its value; an assignment after its value. The names that
are declared earlier in the local scope around the statement are given, if there is one. -/
def Stmt.passages (inFunction : Bool) (earlier : Option (List Name)) : Stmt Node → List Passage
  | .expression _ e => e.accesses.map .access
  | .print _ e => e.accesses.map .access
  | .varDecl n x e => .declaration n x earlier :: (Expr.accesses? e).map .access
  | .block _ body => Program.passages inFunction (some []) body
  | .ifElse _ c t none => c.accesses.map .access ++ t.passages inFunction earlier
  | .ifElse _ c t (some e) =>
    c.accesses.map .access ++ t.passages inFunction earlier ++
      e.passages inFunction (earlier.map (t.ownNames ++ ·))
  | .whileLoop _ c body => c.accesses.map .access ++ body.passages inFunction earlier
  | .funDecl n f params body =>
    .declaration n f earlier :: Passage.parameters n f [] params ++
      Program.passages true (some params) body
  | .returnStmt n e => .returning n inFunction :: (Expr.accesses? e).map .access

def Program.passages (inFunction : Bool) (earlier : Option (List Name)) :
    Program Node → List Passage
  | [] => []
  | s :: rest =>
    s.passages inFunction earlier ++
      Program.passages inFunction (earlier.map (s.ownNames ++ ·)) rest

end

namespace Scope

variable {s : Scope} {x y : Name} {names names' : List Name}

/-- The scope refuses a further declaration of just these names. -/
structure Refuses (s : Scope) (names : List Name) : Prop where
  fair : s.Fair
  taken : ∀ x, s.Taken x ↔ x ∈ names

theorem refuses_empty : empty.Refuses [] :=
  ⟨fair_of_hoisted_eq_nil rfl, fun x => by simp [Taken]⟩

theorem Refuses.congr (h : s.Refuses names) (hsame : ∀ x, x ∈ names ↔ x ∈ names') :
    s.Refuses names' :=
  ⟨h.fair, fun x => (h.taken x).trans (hsame x)⟩

theorem Refuses.declare_fst (h : s.Refuses names) (x : Name) :
    (s.declare x).1 = ! names.contains x := by
  by_cases hx : x ∈ names
  · rw [declare_of_taken ((h.taken x).mpr hx)]
    simp [hx]
  · have hfree : ¬ s.Taken x := fun htaken => hx ((h.taken x).mp htaken)
    rw [Scope.declare_fst]
    unfold Taken at hfree
    by_cases hhoisted : x ∈ s.hoisted
    · simp [hhoisted, hx]
    · have hnone : s.state? x = none := by simpa [hhoisted] using hfree
      simp [hhoisted, hnone, hx]

private theorem Fair.declare (h : s.Fair) (x : Name) : ((s.declare x).2.define x).Fair := by
  have hsublist := hoisted_declare_subset s x
  refine ⟨hsublist.nodup h.nodup, fun y hy => ?_⟩
  exact isSome_state?_declared (h.known y (hsublist.subset hy)) x

private theorem Taken.of_declare (h : ((s.declare x).2.define x).Taken y) (hy : y ≠ x) :
    s.Taken y := by
  obtain ⟨hhoisted, hsome⟩ := h
  constructor
  · intro hmem
    refine hhoisted ?_
    change y ∈ (s.declare x).2.hoisted
    rw [Scope.declare]
    split
    · exact (List.mem_erase_of_ne hy).mpr hmem
    · split <;> exact hmem
  · rw [state?_define, if_neg hy, state?_declare, if_neg fun hx => hy hx.1] at hsome
    exact hsome

theorem Refuses.declare (h : s.Refuses names) (x : Name) :
    ((s.declare x).2.define x).Refuses (x :: names) := by
  refine ⟨h.fair.declare x, fun y => ?_⟩
  rw [List.mem_cons, ← h.taken y]
  constructor
  · intro htaken
    by_cases hy : y = x
    · exact .inl hy
    · exact .inr (htaken.of_declare hy)
  · rintro (rfl | htaken)
    · exact taken_of_declare h.fair.nodup y
    · exact htaken.declared x

/-- A function that is hoisted does not take its name. -/
theorem Taken.of_hoist (h : (s.hoist x).Taken y) : s.Taken y := by
  rw [Scope.hoist] at h
  split at h
  · exact h
  · obtain ⟨hhoisted, hsome⟩ := h
    have hy : y ≠ x := fun heq => hhoisted (heq ▸ List.mem_cons_self)
    have hne : (y == x) = false := by simpa using hy
    refine ⟨fun hmem => hhoisted (List.mem_cons_of_mem x hmem), ?_⟩
    simpa [state?, List.lookup_cons, hne] using hsome

theorem Refuses.withFunctions (h : s.Refuses names) (body : Program Node) :
    (s.withFunctions body).Refuses names := by
  unfold Scope.withFunctions
  induction body.filterMap Stmt.declaredFunction? generalizing s with
  | nil => exact h
  | cons x xs ih =>
    refine ih ⟨h.fair.hoist x, fun y => ?_⟩
    rw [← h.taken y]
    exact ⟨Taken.of_hoist, fun htaken => htaken.hoist x⟩

private theorem Refuses.withParams (h : s.Refuses names) (f : Name) (l : Location)
    (params : List Name) : (Scope.withParams f l params s).2.Refuses (params.reverse ++ names) := by
  induction params generalizing s names with
  | nil => exact h
  | cons p rest ih =>
    refine (ih (h.declare p)).congr fun x => ?_
    simp

/-- The innermost scope, if there is one, refuses the names that are declared earlier in it. -/
inductive InnerRefuses : List Scope → Option (List Name) → Prop where
  | top : InnerRefuses [] none
  | inner {s : Scope} {earlier : List Name} (outer : List Scope) (h : s.Refuses earlier) :
    InnerRefuses (s :: outer) (some earlier)

private theorem innerRefuses_function (f : Name) (l : Location) (params : List Name)
    (body : Program Node) (outer : List Scope) :
    InnerRefuses ((Scope.empty.withParams f l params).2.withFunctions body :: outer)
      (some params) :=
  .inner outer (((refuses_empty.withParams f l params).withFunctions body).congr fun x => by simp)

private theorem innerRefuses_block (body : Program Node) (outer : List Scope) :
    InnerRefuses (Scope.empty.withFunctions body :: outer) (some []) :=
  .inner outer (refuses_empty.withFunctions body)

namespace InnerRefuses

variable {scopes : List Scope} {earlier : Option (List Name)}

private theorem declare (h : InnerRefuses scopes earlier) (x : Name) (l : Location) :
    InnerRefuses (defineInner x (declareInner x l scopes).2) (earlier.map ([x] ++ ·)) := by
  cases h with
  | top => exact .top
  | inner outer h => exact .inner outer (h.declare x)

/-- The order of the names does not matter. -/
theorem append {xs ys : List Name}
    (h : InnerRefuses scopes ((earlier.map (xs ++ ·)).map (ys ++ ·))) :
    InnerRefuses scopes (earlier.map (xs ++ ys ++ ·)) := by
  cases earlier with
  | none => exact h
  | some names =>
    cases h with
    | inner outer h =>
      refine .inner outer (h.congr fun x => ?_)
      simp only [List.mem_append]
      tauto

end InnerRefuses

end Scope

open Scope

/-- Behind a statement the innermost scope refuses also what the statement declares in it. -/
theorem Stmt.innerRefuses (b : Bool) : ∀ (s : Stmt Node) {scopes : List Scope}
    {earlier : Option (List Name)}, InnerRefuses scopes earlier →
      InnerRefuses (s.findings b scopes).2 (earlier.map (s.ownNames ++ ·))
  | .expression .., _, earlier, h | .print .., _, earlier, h | .block .., _, earlier, h
  | .returnStmt .., _, earlier, h => by cases earlier <;> exact h
  | .varDecl n x _, _, _, h => h.declare x n.location
  | .funDecl n f _ _, _, _, h => h.declare f n.location
  | .ifElse _ _ t none, _, _, h => t.innerRefuses b h
  | .ifElse _ _ t (some e), _, _, h => (e.innerRefuses b (t.innerRefuses b h)).append
  | .whileLoop _ _ body, _, _, h => body.innerRefuses b h

/-- An access that is found is reported just if it is to an undefined variable. -/
def Finding.Judged (known : List Name) (reportUndefined : Bool) (undefined : Access Node → Bool) :
    Finding → Prop
  | access n x d => ∀ writes, (access n x d).diagnostic? known reportUndefined =
      (Passage.access ⟨writes, n, x⟩).diagnostic? undefined
  | fault .. => True

/-- What is reported of the findings is what there is to report of the passages. -/
def Reports (known : List Name) (reportUndefined : Bool) (undefined : Access Node → Bool)
    (findings : List Finding) (passages : List Passage) : Prop :=
  findings.filterMap (Finding.diagnostic? known reportUndefined) =
    passages.filterMap (Passage.diagnostic? undefined)

section

variable {known : List Name} {reportUndefined : Bool} {undefined : Access Node → Bool}
  {scopes : List Scope} {earlier : Option (List Name)}

theorem Reports.append {findings others : List Finding} {passages further : List Passage}
    (h : Reports known reportUndefined undefined findings passages)
    (hothers : Reports known reportUndefined undefined others further) :
    Reports known reportUndefined undefined (findings ++ others) (passages ++ further) := by
  unfold Reports at *
  rw [List.filterMap_append, List.filterMap_append, h, hothers]

theorem reports_ite (allowed : Bool) {fault : ScopeFault} {l : Location} {passage : Passage}
    (h : passage.diagnostic? undefined = if allowed then none else some ⟨fault, l⟩) :
    Reports known reportUndefined undefined (if allowed then [] else [.fault fault l])
      [passage] := by
  cases allowed <;> simp [Reports, Finding.diagnostic?, h]

private theorem Scope.reports_declareInner (h : InnerRefuses scopes earlier) (n : Node) (x : Name) :
    Reports known reportUndefined undefined (declareInner x n.location scopes).1
      [.declaration n x earlier] := by
  cases h with
  | top => rfl
  | @inner s names outer h =>
    refine reports_ite (s.declare x).1 ?_
    rw [h.declare_fst x]
    by_cases hx : x ∈ names <;> simp [Passage.diagnostic?, hx]

private theorem Scope.reports_withParams (n : Node) (f : Name) (params : List Name) {s : Scope}
    {names : List Name} (h : s.Refuses names) :
    Reports known reportUndefined undefined (withParams f n.location params s).1
      (Passage.parameters n f names params) := by
  induction params generalizing s names with
  | nil => rfl
  | cons p rest ih =>
    have hfirst : (Passage.parameter n f p names).diagnostic? undefined =
        if (s.declare p).1 then none else some ⟨.duplicateParameter p f, n.location⟩ := by
      rw [h.declare_fst p]
      by_cases hp : p ∈ names <;> simp [Passage.diagnostic?, hp]
    exact (reports_ite (s.declare p).1 hfirst).append (ih (h.declare p))

theorem Expr.reports (e : Expr Node)
    (h : ∀ f ∈ e.findings scopes, f.Judged known reportUndefined undefined) :
    Reports known reportUndefined undefined (e.findings scopes) (e.accesses.map .access) := by
  rw [e.findings_eq_map_accesses] at h ⊢
  unfold Reports
  rw [List.filterMap_map, List.filterMap_map]
  exact List.filterMap_congr fun a ha => h _ (List.mem_map_of_mem ha) a.writes

private theorem Expr.reports? (e : Option (Expr Node))
    (h : ∀ f ∈ Expr.findings? scopes e, f.Judged known reportUndefined undefined) :
    Reports known reportUndefined undefined (Expr.findings? scopes e)
      ((Expr.accesses? e).map .access) := by
  cases e with
  | none => rfl
  | some e => exact e.reports h

-- By induction on the tree. What is kept from one statement to the next is that the innermost scope
-- refuses just the names that are declared earlier in it; hoisted functions are not among them.
mutual

theorem Stmt.reports (b : Bool) : ∀ (s : Stmt Node) {scopes : List Scope}
    {earlier : Option (List Name)}, InnerRefuses scopes earlier →
      (∀ f ∈ (s.findings b scopes).1, f.Judged known reportUndefined undefined) →
      Reports known reportUndefined undefined (s.findings b scopes).1 (s.passages b earlier)
  | .expression _ e, _, _, _, h | .print _ e, _, _, _, h => e.reports h
  | .varDecl n x e, _, _, hscopes, h =>
    have ⟨_, he⟩ := List.forall_mem_append.mp h
    (Scope.reports_declareInner hscopes n x).append (Expr.reports? e he)
  | .block _ body, _, _, _, h => Program.reports b body (innerRefuses_block body _) h
  | .ifElse _ c t none, _, _, hscopes, h =>
    have ⟨hc, ht⟩ := List.forall_mem_append.mp h
    (c.reports hc).append (t.reports b hscopes ht)
  | .ifElse _ c t (some e), _, _, hscopes, h =>
    have ⟨hct, he⟩ := List.forall_mem_append.mp h
    have ⟨hc, ht⟩ := List.forall_mem_append.mp hct
    ((c.reports hc).append (t.reports b hscopes ht)).append
      (e.reports b (t.innerRefuses b hscopes) he)
  | .whileLoop _ c body, _, _, hscopes, h =>
    have ⟨hc, hbody⟩ := List.forall_mem_append.mp h
    (c.reports hc).append (body.reports b hscopes hbody)
  | .funDecl n f params body, _, _, hscopes, h =>
    have ⟨_, hbody⟩ := List.forall_mem_append.mp h
    ((Scope.reports_declareInner hscopes n f).append
      (Scope.reports_withParams n f params refuses_empty)).append
      (Program.reports true body (innerRefuses_function f n.location params body _) hbody)
  | .returnStmt _ e, _, _, _, h =>
    have ⟨_, he⟩ := List.forall_mem_append.mp h
    (reports_ite b rfl).append (Expr.reports? e he)

theorem Program.reports (b : Bool) : ∀ (p : Program Node) {scopes : List Scope}
    {earlier : Option (List Name)}, InnerRefuses scopes earlier →
      (∀ f ∈ (Program.findings b scopes p).1, f.Judged known reportUndefined undefined) →
      Reports known reportUndefined undefined (Program.findings b scopes p).1
        (Program.passages b earlier p)
  | [], _, _, _, _ => rfl
  | s :: rest, _, _, hscopes, h =>
    have ⟨hs, hrest⟩ := List.forall_mem_append.mp h
    (s.reports b hscopes hs).append (Program.reports b rest (s.innerRefuses b hscopes) hrest)

end

end

end Lox
