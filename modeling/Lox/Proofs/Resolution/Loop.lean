import Lox.Proofs.Resolution.Lexical
import Lox.Proofs.Tree.ForLoop

/-! The scope of a loop. The variable that the initializer declares is the one that the condition
and the increment mean, whatever the body declares. -/

namespace Lox

/-- The table binds the access to the innermost of these scopes, and skips the scopes between it and
the access. -/
def Access.ResolvesTo (a : Access Node) (p : Program Node) (table : ResolutionTable)
    (scopes : List LexicalScope) : Prop :=
  ∃ between s, Inside p (between ++ scopes) s ∧ a ∈ s.ownAccesses ∧
    table[a.note.key]? = some (.atDepth between.length)

/-- Where only the last of some scopes has a name, that one is the nearest. -/
theorem LexicalScope.Nearest.eq_length {between scopes : List LexicalScope} {c : LexicalScope}
    {x : Name} {depth : Option Nat} (h : Nearest (between ++ c :: scopes) x depth)
    (hbetween : ∀ b ∈ between, ¬ b.Has x) (hc : c.Has x) : depth = some between.length := by
  cases depth with
  | none => exact absurd hc (h c (List.mem_append_right _ List.mem_cons_self))
  | some d =>
    obtain ⟨⟨b, hb, hhas⟩, hbefore⟩ := h
    rcases Nat.lt_trichotomy d between.length with hd | rfl | hd
    · rw [List.getElem?_append_left hd] at hb
      exact absurd hhas (hbetween b (List.mem_of_getElem? hb))
    · rfl
    · refine absurd hc (hbefore c (List.mem_of_getElem? (i := between.length) ?_))
      rw [List.getElem?_take_of_lt hd, List.getElem?_append_right (Nat.le_refl _), Nat.sub_self]
      rfl

namespace ForLoop

variable {p : Program Node} {known : List Name} {reportUndefined : Bool}
  {scopes : List LexicalScope}

/-- An access is bound to the nearest scope that has its name. -/
theorem resolvesTo (hkeys : (Program.keys p).Nodup) (hscoped : Program.Scoped p) {a : Access Node}
    (between : List LexicalScope) {c : LexicalScope} {s : Stmt Node}
    (hinside : Inside p (between ++ c :: scopes) s) (ha : a ∈ s.ownAccesses)
    (hbetween : ∀ b ∈ between, ¬ b.Has a.name) (hc : c.Has a.name) :
    a.ResolvesTo p
      (resolve known reportUndefined p).table (c :: scopes) := by
  obtain ⟨depth, hentry, hnearest⟩ := hinside.resolve_ownAccess hkeys hscoped ha
  rw [hnearest.eq_length hbetween hc] at hentry
  exact ⟨between, s, hinside, ha, hentry⟩

/-- The block around the body and the increment has no names of its own. -/
theorem not_has_round {body : Stmt Node} (hplain : body.Plain) (n : Node) (e : Expr Node)
    (x : Name) : ¬ LexicalScope.Has ⟨[], [body, .expression n e], [body]⟩ x := by
  rintro (hx | ⟨m, params, inner, hx⟩ | ⟨m, initializer, hx⟩)
  · exact absurd hx List.not_mem_nil
  · rcases List.mem_cons.mp hx with rfl | hx
    · cases hplain.1
    · cases List.mem_singleton.mp hx
  · cases List.mem_singleton.mp hx
    cases hplain.1

/-- The accesses of the condition and the increment to the variable of the loop are bound to the
block that the tree of the loop is, in which only the initializer stands before the plain loop. -/
theorem Desugars.resolves {l : ForLoop Node} {tree : Stmt Node} (h : l.Desugars tree)
    (hplain : l.body.Plain) (hkeys : (Program.keys p).Nodup) (hscoped : Program.Scoped p)
    (hinside : Inside p scopes tree) {n : Node} {x : Name}
    {e : Option (Expr Node)} (hfirst : l.initializer = some (.varDecl n x e)) :
    ∃ m loop, tree = .block m [.varDecl n x e, loop] ∧
      ∀ a ∈ Expr.accesses? l.condition ++ Expr.accesses? l.increment, a.name = x →
        a.ResolvesTo p
          (resolve known reportUndefined p).table
          (⟨[], [.varDecl n x e, loop], [.varDecl n x e]⟩ :: scopes) := by
  cases h with
  | whileLoop => cases hfirst
  | @block m m' first c test increment body round htest hrepeats =>
    cases hfirst
    refine ⟨m, _, rfl, fun a ha hx => ?_⟩
    let scope : LexicalScope :=
      ⟨[], [.varDecl n x e, .whileLoop m' test round], [.varDecl n x e]⟩
    have hloop : Inside p (scope :: scopes) (.whileLoop m' test round) :=
      hinside.block rfl
    have hhas : scope.Has a.name := .inr (.inr ⟨n, e, hx ▸ List.mem_singleton_self _⟩)
    rcases List.mem_append.mp ha with ha | ha
    · refine resolvesTo hkeys hscoped [] hloop ?_ (List.forall_mem_nil _) hhas
      cases htest with
      | absent => exact absurd ha List.not_mem_nil
      | present => exact ha
    · cases hrepeats with
      | plain => exact absurd ha List.not_mem_nil
      | @followed i j e' =>
        have hround : Inside p
            (⟨[], [body, .expression j e'], [body]⟩ :: scope :: scopes)
            (.expression j e') := hloop.loop.block rfl
        refine resolvesTo hkeys hscoped [_] hround ha ?_ hhas
        exact List.forall_mem_singleton.mpr (not_has_round hplain j e' a.name)

end ForLoop

end Lox
