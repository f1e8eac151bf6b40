import Lox.Proofs.Tree.Drawn
import Lox.Proofs.Tree.Each
import Lox.Tree.Decode

/-! What is made of checked parts: the nodes stand where the parts do, and each has a note that was
drawn for it alone. -/

namespace Lox

variable {α σ ν : Type} [Supply σ Location ν]

namespace Supply

theorem bind_apply {β : Type} (x : StateM σ α) (f : α → StateM σ β) (s : σ) :
    (x >>= f) s = f (x s).1 (x s).2 := rfl

theorem pure_apply (a : α) (s : σ) : (pure a : StateM σ α) s = (a, s) := rfl

end Supply

section Place

open Supply (bind_apply pure_apply)

private theorem place_note (l : Option Location) (s : σ) :
    Supply.place σ (Location.note l s).1 = Location.orUnknown l :=
  Supply.place_draw _ s

mutual

/-- A node that does not say where it comes from gets the location that stands for none. -/
theorem Expr.map_load (s : σ) :
    ∀ e, (Expr.load e s).1.map (Supply.place σ) = e.map Location.orUnknown
  | .binary _ l _ r | .logical _ l _ r => by
    simp only [Expr.load, Expr.map, bind_apply, pure_apply, place_note, l.map_load, r.map_load]
  | .grouping _ e | .unary _ _ e | .assign _ _ e => by
    simp only [Expr.load, Expr.map, bind_apply, pure_apply, place_note, e.map_load]
  | .literal .. | .reference .. => by
    simp only [Expr.load, Expr.map, bind_apply, pure_apply, place_note]
  | .call _ c args => by
    simp only [Expr.load, Expr.map, bind_apply, pure_apply, place_note, c.map_load,
      Expr.mapAll_load _ args]

theorem Expr.mapAll_load (s : σ) :
    ∀ es, Expr.mapAll (Supply.place σ) (Expr.loadAll es s).1 = Expr.mapAll Location.orUnknown es
  | [] => rfl
  | e :: rest => by
    simp only [Expr.loadAll, Expr.mapAll, bind_apply, pure_apply, e.map_load,
      Expr.mapAll_load _ rest]

end

private theorem Expr.map_load? (s : σ) (e : Option (Expr (Option Location))) :
    (Expr.load? e s).1.map (Expr.map (Supply.place σ)) = e.map (Expr.map Location.orUnknown) := by
  cases e with
  | none => rfl
  | some e => exact congrArg some (e.map_load s)

mutual

theorem Stmt.map_load (s : σ) :
    ∀ t, (Stmt.load t s).1.map (Supply.place σ) = t.map Location.orUnknown
  | .expression _ e | .print _ e => by
    simp only [Stmt.load, Stmt.map, bind_apply, pure_apply, place_note, e.map_load]
  | .varDecl _ _ e | .returnStmt _ e => by
    simp only [Stmt.load, Stmt.map, bind_apply, pure_apply, place_note, Expr.map_load? _ e]
  | .block _ body | .funDecl _ _ _ body => by
    simp only [Stmt.load, Stmt.map, bind_apply, pure_apply, place_note, Program.map_load _ body]
  | .ifElse _ c t none => by
    simp only [Stmt.load, Stmt.map, bind_apply, pure_apply, place_note, c.map_load, t.map_load]
  | .ifElse _ c t (some e) => by
    simp only [Stmt.load, Stmt.map, bind_apply, pure_apply, place_note, c.map_load, t.map_load,
      e.map_load]
  | .whileLoop _ c body => by
    simp only [Stmt.load, Stmt.map, bind_apply, pure_apply, place_note, c.map_load, body.map_load]

theorem Program.map_load (s : σ) :
    ∀ p, Program.map (Supply.place σ) (Program.load p s).1 = Program.map Location.orUnknown p
  | [] => rfl
  | t :: rest => by
    simp only [Program.load, Program.map, bind_apply, pure_apply, t.map_load,
      Program.map_load _ rest]

end

theorem Program.load_unit (p : Program (Option Location)) :
    (Program.load p ()).1 = Program.map Location.orUnknown p := by
  rw [← Program.map_load ()]
  exact (Program.map_id _).symm

end Place

section Keys

mutual

/-- Every node of a tree that is loaded has a key of its own. -/
theorem Expr.drawn_load (k : Nat) :
    ∀ e : Expr (Option Location), Drawn k (Expr.load e k).2 (Expr.load e k).1.notes
  | .binary _ l _ r | .logical _ l _ r =>
    ((l.drawn_load k).append (r.drawn_load _)).append (.one _ _)
  | .grouping _ e | .unary _ _ e | .assign _ _ e => (e.drawn_load k).append (.one _ _)
  | .literal .. | .reference .. => .one k _
  | .call _ c args => ((c.drawn_load k).append (Expr.drawn_loadAll _ args)).append (.one _ _)

theorem Expr.drawn_loadAll (k : Nat) : ∀ es : List (Expr (Option Location)),
    Drawn k (Expr.loadAll es k).2 (Expr.notesAll (Expr.loadAll es k).1)
  | [] => .nil (Nat.le_refl k)
  | e :: rest => (e.drawn_load k).append (Expr.drawn_loadAll _ rest)

end

private theorem Expr.drawn_load? (k : Nat) : ∀ e : Option (Expr (Option Location)),
    Drawn k (Expr.load? e k).2 (Expr.notes? (Expr.load? e k).1)
  | none => .nil (Nat.le_refl k)
  | some e => e.drawn_load k

mutual

theorem Stmt.drawn_load (k : Nat) :
    ∀ s : Stmt (Option Location), Drawn k (Stmt.load s k).2 (Stmt.load s k).1.notes
  | .expression _ e | .print _ e => (e.drawn_load k).append (.one _ _)
  | .varDecl _ _ e | .returnStmt _ e => (Expr.drawn_load? k e).append (.one _ _)
  | .block _ body | .funDecl _ _ _ body => (Program.drawn_load k body).append (.one _ _)
  | .ifElse _ c t none => ((c.drawn_load k).append (t.drawn_load _)).append (.one _ _)
  | .ifElse _ c t (some e) =>
    (((c.drawn_load k).append (t.drawn_load _)).append (e.drawn_load _)).append (.one _ _)
  | .whileLoop _ c body => ((c.drawn_load k).append (body.drawn_load _)).append (.one _ _)

theorem Program.drawn_load (k : Nat) : ∀ p : Program (Option Location),
    Drawn k (Program.load p k).2 (Program.notes (Program.load p k).1)
  | [] => .nil (Nat.le_refl k)
  | s :: rest => (s.drawn_load k).append (Program.drawn_load _ rest)

end

/-- Keys do not change what is decoded. -/
theorem Program.exists_ofJsonKeyed? {json : Option Json} {p : Program Location}
    (h : Program.ofJson? json = .ok p) (k : Nat) : ∃ read,
      Program.ofJsonKeyed? k json = .ok read ∧ Program.map Keyed.location read.1 = p := by
  unfold Program.ofJson? at h
  unfold Program.ofJsonKeyed?
  cases hcheck : Program.check json with
  | ok checked =>
    rw [hcheck] at h
    cases h
    exact ⟨_, rfl, (Program.map_load k checked).trans (Program.load_unit checked).symm⟩
  | wrong issue rest =>
    rw [hcheck] at h
    cases h

/-- A program that is decoded is one that has been checked, loaded. -/
theorem Program.exists_load_of_ofJsonKeyed? {k : Nat} {json : Option Json}
    {read : Program Node × Nat} (h : Program.ofJsonKeyed? k json = .ok read) :
    ∃ checked, Program.check json = .ok checked ∧ Program.load checked k = read := by
  unfold Program.ofJsonKeyed? at h
  cases hcheck : Program.check json with
  | ok checked =>
    rw [hcheck] at h
    cases h
    exact ⟨checked, rfl, rfl⟩
  | wrong issue rest =>
    rw [hcheck] at h
    cases h

theorem Program.drawn_ofJsonKeyed? {k : Nat} {json : Option Json} {read : Program Node × Nat}
    (h : Program.ofJsonKeyed? k json = .ok read) : Drawn k read.2 (Program.notes read.1) := by
  obtain ⟨checked, -, rfl⟩ := Program.exists_load_of_ofJsonKeyed? h
  exact Program.drawn_load k checked

end Keys

end Lox
