import Lox.Proofs.Parse.Keys
import Lox.Proofs.Parse.Nearest
import Lox.Proofs.Resolution.Scoped

/-! In the trees that the parser builds declarations stand only where the grammar has them. -/

namespace Lox

section

variable {α : Type}

/-- The statement declares nothing itself, and declarations inside it stand where they may. -/
def Stmt.Plain (s : Stmt α) : Prop := s.declared? = none ∧ s.Scoped

private theorem Stmt.Plain.followedBy {body : Stmt α} (h : body.Plain)
    (increment : Option (Expr α)) : (body.followedBy increment).Plain := by
  cases increment with
  | none => exact h
  | some e => exact ⟨rfl, h.2, trivial, trivial⟩

/-- The variable of a loop is declared in a block of its own. -/
theorem Stmt.Plain.forLoop {body : Stmt α} (h : body.Plain) (note : α) {first : Option (Stmt α)}
    (hfirst : ∀ s, first = some s → s.Scoped) (c : Expr α) (increment : Option (Expr α)) :
    (Stmt.forLoop note first c increment body).Plain := by
  have hloop : (Stmt.whileLoop note c (body.followedBy increment)).Plain :=
    ⟨rfl, h.followedBy increment⟩
  cases first with
  | none => exact hloop
  | some s => exact ⟨rfl, hfirst s rfl, hloop.2, trivial⟩

variable {β : Type}

theorem Stmt.declared?_map (f : α → β) (s : Stmt α) : (s.map f).declared? = s.declared? := by
  cases s with
  | ifElse n c t e => cases e <;> rfl
  | _ => rfl

private theorem Stmt.declaredFunction?_map (f : α → β) (s : Stmt α) :
    (s.map f).declaredFunction? = s.declaredFunction? := by
  cases s with
  | ifElse n c t e => cases e <;> rfl
  | _ => rfl

theorem Program.declared_map (f : α → β) (p : Program α) :
    Program.declared (Program.map f p) = Program.declared p := by
  unfold Program.declared
  induction p with
  | nil => rfl
  | cons s rest ih => rw [map, List.filterMap_cons, List.filterMap_cons, ih, s.declared?_map]

theorem Program.functions_map (f : α → β) (p : Program α) :
    (Program.map f p).filterMap Stmt.declaredFunction? =
      p.filterMap Stmt.declaredFunction? := by
  induction p with
  | nil => rfl
  | cons s rest ih =>
    rw [map, List.filterMap_cons, List.filterMap_cons, ih, s.declaredFunction?_map]

mutual

theorem Stmt.scoped_map (f : α → β) : ∀ s : Stmt α, (s.map f).Scoped ↔ s.Scoped
  | .expression .. | .print .. | .varDecl .. | .returnStmt .. => .rfl
  | .block _ body | .funDecl _ _ _ body => Program.scoped_map f body
  | .ifElse _ _ t none => and_congr (by rw [t.declared?_map f]) (t.scoped_map f)
  | .ifElse _ _ t (some e) =>
    and_congr (and_congr (by rw [t.declared?_map f]) (t.scoped_map f))
      (and_congr (by rw [e.declared?_map f]) (e.scoped_map f))
  | .whileLoop _ _ body => and_congr (by rw [body.declared?_map f]) (body.scoped_map f)

theorem Program.scoped_map (f : α → β) :
    ∀ p : Program α, Program.Scoped (Program.map f p) ↔ Program.Scoped p
  | [] => .rfl
  | s :: rest => and_congr (s.scoped_map f) (Program.scoped_map f rest)

end

end

namespace Grammar

/-- Of statements in a phrase, those that the grammar does not call declarations declare nothing. -/
def Phrase.Scoped : Phrase → Prop
  | .statement _ s | .exprStmt s => s.Plain
  | .declaration s | .varDecl s => s.Scoped
  | .declarations p => Program.Scoped p
  | .forClause first => ∀ s, first = some s → s.Scoped
  | _ => True

theorem Derives.isScoped {nearest : Bool} {ph : Phrase} {ts : List Token}
    (h : Derives nearest ph ts) : ph.Scoped := by
  induction h with
  | noDeclarations => exact trivial
  | moreDeclarations _ _ ihs ihp => exact ⟨ihs, ihp⟩
  | function _ _ _ _ _ _ _ _ _ ih => exact ih
  | variableDeclaration _ ih => exact ih
  | statement _ ih => exact ih.2
  | varDecl => exact trivial
  | expressionStatement _ ih => exact ih
  | exprStmt | print | returnStmt => exact ⟨rfl, trivial⟩
  | block _ _ _ ih => exact ⟨rfl, ih⟩
  | ifOnly _ _ _ _ _ _ ihs => exact ⟨rfl, ihs⟩
  | ifElse _ _ _ _ _ _ _ _ _ ihs ihs' => exact ⟨rfl, ihs, ihs'⟩
  | whileLoop _ _ _ _ _ _ ihs => exact ⟨rfl, ihs⟩
  | forLoop _ _ _ _ _ _ _ _ ihfirst _ _ ihs => exact ihs.forLoop _ ihfirst _ _
  | noClause =>
    intro s hs
    cases hs
  | varClause _ ih =>
    intro s hs
    cases hs
    exact ih
  | exprClause _ ih =>
    intro s hs
    cases hs
    exact ih.2
  | _ => exact trivial

end Grammar

private theorem scoped_of_parse? {source : Text} {q : Program Position}
    (h : parse? source = .ok q) : Program.Scoped q :=
  (Parse.isNearestProgram_of_parse? h).isScoped

/-- The program of a source text, ready to be resolved and run. -/
theorem scoped_of_parseKeyed? {k : Nat} {source : Text} {p : Program Node}
    (h : parseKeyed? k source = .ok p) : Program.Scoped p := by
  obtain ⟨q, hq, hplaces⟩ := exists_parse?_of_parseKeyed? h
  rw [← Program.scoped_map Keyed.location, hplaces, Program.scoped_map]
  exact scoped_of_parse? hq

private theorem exists_ok_of_any {α ε : Type} {read : Except ε α} {P : α → Prop} [DecidablePred P]
    (h : read.toOption.any (fun a => P a) = true) : ∃ a, read = .ok a ∧ P a := by
  cases read with
  | error e => cases h
  | ok a => exact ⟨a, rfl, of_decide_eq_true h⟩

/-- A source text is read as a program of which a test that can be computed is true. -/
theorem exists_parse?_of_any {source : Text} {P : Program Position → Prop} [DecidablePred P]
    (h : (parse? source).toOption.any (fun q => P q) = true) :
    ∃ q, parse? source = .ok q ∧ P q :=
  exists_ok_of_any h

theorem exists_parseKeyed?_of_any {k : Nat} {source : Text} {P : Program Node → Prop}
    [DecidablePred P] (h : (parseKeyed? k source).toOption.any (fun p => P p) = true) :
    ∃ p, parseKeyed? k source = .ok p ∧ P p :=
  exists_ok_of_any h

end Lox
