import Lox.Tree.Basic

/-! The notes of a tree, and other notes in their place. -/

namespace Lox

variable {α : Type}

mutual

/-- The notes of an expression, those of its parts first. -/
def Expr.notes : Expr α → List α
  | .binary n l _ r | .logical n l _ r => l.notes ++ r.notes ++ [n]
  | .grouping n e | .unary n _ e | .assign n _ e => e.notes ++ [n]
  | .literal n _ | .reference n _ => [n]
  | .call n c args => c.notes ++ Expr.notesAll args ++ [n]

def Expr.notesAll : List (Expr α) → List α
  | [] => []
  | e :: rest => e.notes ++ Expr.notesAll rest

end

/-- The notes of an expression that may be absent. -/
def Expr.notes? (e : Option (Expr α)) : List α := (e.map Expr.notes).getD []

mutual

/-- The notes of a statement, those of its parts first. -/
def Stmt.notes : Stmt α → List α
  | .expression n e | .print n e => e.notes ++ [n]
  | .varDecl n _ e | .returnStmt n e => Expr.notes? e ++ [n]
  | .block n body | .funDecl n _ _ body => Program.notes body ++ [n]
  | .ifElse n c t none => c.notes ++ t.notes ++ [n]
  | .ifElse n c t (some e) => c.notes ++ t.notes ++ e.notes ++ [n]
  | .whileLoop n c body => c.notes ++ body.notes ++ [n]

def Program.notes : Program α → List α
  | [] => []
  | s :: rest => s.notes ++ Program.notes rest

end

theorem Program.notes_append (p q : Program α) :
    Program.notes (p ++ q) = Program.notes p ++ Program.notes q := by
  induction p with
  | nil => rfl
  | cons s rest ih => rw [List.cons_append, notes, notes, ih, List.append_assoc]

section Map

variable {β : Type} (f : α → β)

mutual

theorem Expr.notes_map : ∀ e : Expr α, (e.map f).notes = e.notes.map f
  | .binary _ l _ r | .logical _ l _ r => by
    simp only [Expr.map, Expr.notes, List.map_append, List.map_singleton, l.notes_map, r.notes_map]
  | .grouping _ e | .unary _ _ e | .assign _ _ e => by
    simp only [Expr.map, Expr.notes, List.map_append, List.map_singleton, e.notes_map]
  | .literal .. | .reference .. => rfl
  | .call _ c args => by
    simp only [Expr.map, Expr.notes, List.map_append, List.map_singleton, c.notes_map,
      Expr.notesAll_mapAll args]

theorem Expr.notesAll_mapAll :
    ∀ es : List (Expr α), Expr.notesAll (Expr.mapAll f es) = (Expr.notesAll es).map f
  | [] => rfl
  | e :: rest => by
    simp only [Expr.mapAll, Expr.notesAll, List.map_append, e.notes_map, Expr.notesAll_mapAll rest]

end

private theorem Expr.notes?_map (e : Option (Expr α)) :
    Expr.notes? (e.map (Expr.map f)) = (Expr.notes? e).map f := by
  cases e with
  | none => rfl
  | some e => exact e.notes_map f

mutual

theorem Stmt.notes_map : ∀ s : Stmt α, (s.map f).notes = s.notes.map f
  | .expression _ e | .print _ e => by
    simp only [Stmt.map, Stmt.notes, List.map_append, List.map_singleton, e.notes_map f]
  | .varDecl _ _ e | .returnStmt _ e => by
    simp only [Stmt.map, Stmt.notes, List.map_append, List.map_singleton, Expr.notes?_map f e]
  | .block _ body | .funDecl _ _ _ body => by
    simp only [Stmt.map, Stmt.notes, List.map_append, List.map_singleton, Program.notes_map body]
  | .ifElse _ c t none => by
    simp only [Stmt.map, Stmt.notes, List.map_append, List.map_singleton, c.notes_map f,
      t.notes_map]
  | .ifElse _ c t (some e) => by
    simp only [Stmt.map, Stmt.notes, List.map_append, List.map_singleton, c.notes_map f,
      t.notes_map,
      e.notes_map]
  | .whileLoop _ c body => by
    simp only [Stmt.map, Stmt.notes, List.map_append, List.map_singleton, c.notes_map f,
      body.notes_map]

theorem Program.notes_map :
    ∀ p : Program α, Program.notes (Program.map f p) = (Program.notes p).map f
  | [] => rfl
  | s :: rest => by
    simp only [Program.map, Program.notes, List.map_append, s.notes_map, Program.notes_map rest]

end

end Map

section Congruence

variable {β : Type} {f g : α → β}

mutual

theorem Expr.map_congr : ∀ e : Expr α, (∀ n ∈ e.notes, f n = g n) → e.map f = e.map g
  | .binary _ l _ r, h | .logical _ l _ r, h => by
    simp only [notes, List.forall_mem_append, List.forall_mem_singleton] at h
    simp only [map, l.map_congr h.1.1, r.map_congr h.1.2, h.2]
  | .grouping _ e, h | .unary _ _ e, h | .assign _ _ e, h => by
    simp only [notes, List.forall_mem_append, List.forall_mem_singleton] at h
    simp only [map, e.map_congr h.1, h.2]
  | .literal n _, h | .reference n _, h => by simp only [map, h n List.mem_cons_self]
  | .call _ c args, h => by
    simp only [notes, List.forall_mem_append, List.forall_mem_singleton] at h
    simp only [map, c.map_congr h.1.1, Expr.mapAll_congr args h.1.2, h.2]

theorem Expr.mapAll_congr : ∀ es : List (Expr α), (∀ n ∈ Expr.notesAll es, f n = g n) →
    Expr.mapAll f es = Expr.mapAll g es
  | [], _ => rfl
  | e :: rest, h => by
    obtain ⟨he, hrest⟩ := List.forall_mem_append.mp h
    simp only [mapAll, e.map_congr he, Expr.mapAll_congr rest hrest]

end

private theorem Expr.map?_congr {e : Option (Expr α)} (h : ∀ n ∈ Expr.notes? e, f n = g n) :
    e.map (Expr.map f) = e.map (Expr.map g) := by
  cases e with
  | none => rfl
  | some e => exact congrArg some (e.map_congr h)

mutual

theorem Stmt.map_congr : ∀ s : Stmt α, (∀ n ∈ s.notes, f n = g n) → s.map f = s.map g
  | .expression _ e, h | .print _ e, h => by
    simp only [Stmt.notes, List.forall_mem_append, List.forall_mem_singleton] at h
    simp only [Stmt.map, e.map_congr h.1, h.2]
  | .varDecl _ _ e, h | .returnStmt _ e, h => by
    simp only [Stmt.notes, List.forall_mem_append, List.forall_mem_singleton] at h
    simp only [Stmt.map, Expr.map?_congr h.1, h.2]
  | .block _ body, h | .funDecl _ _ _ body, h => by
    simp only [Stmt.notes, List.forall_mem_append, List.forall_mem_singleton] at h
    simp only [Stmt.map, Program.map_congr body h.1, h.2]
  | .ifElse _ c t none, h => by
    simp only [Stmt.notes, List.forall_mem_append, List.forall_mem_singleton] at h
    simp only [Stmt.map, c.map_congr h.1.1, t.map_congr h.1.2, h.2]
  | .ifElse _ c t (some e), h => by
    simp only [Stmt.notes, List.forall_mem_append, List.forall_mem_singleton] at h
    simp only [Stmt.map, c.map_congr h.1.1.1, t.map_congr h.1.1.2, e.map_congr h.1.2, h.2]
  | .whileLoop _ c body, h => by
    simp only [Stmt.notes, List.forall_mem_append, List.forall_mem_singleton] at h
    simp only [Stmt.map, c.map_congr h.1.1, body.map_congr h.1.2, h.2]

/-- A tree depends on the notes that it has only. -/
theorem Program.map_congr : ∀ p : Program α, (∀ n ∈ Program.notes p, f n = g n) →
    Program.map f p = Program.map g p
  | [], _ => rfl
  | s :: rest, h => by
    obtain ⟨hs, hrest⟩ := List.forall_mem_append.mp h
    simp only [Program.map, s.map_congr hs, Program.map_congr rest hrest]

end

end Congruence

section Accesses

variable {β : Type} (f : α → β)

/-- The access with another note. -/
def Access.map (a : Access α) : Access β := ⟨a.writes, f a.note, a.name⟩

mutual

theorem Expr.accesses_map : ∀ e : Expr α, (e.map f).accesses = e.accesses.map (Access.map f)
  | .binary _ l _ r | .logical _ l _ r => by
    simp only [Expr.map, Expr.accesses, List.map_append, l.accesses_map, r.accesses_map]
  | .grouping _ e | .unary _ _ e => e.accesses_map
  | .literal .. | .reference .. => rfl
  | .assign _ _ e => by
    simp only [Expr.map, Expr.accesses, List.map_append, e.accesses_map]
    rfl
  | .call _ c args => by
    simp only [Expr.map, Expr.accesses, List.map_append, c.accesses_map,
      Expr.accessesAll_mapAll args]

theorem Expr.accessesAll_mapAll : ∀ es : List (Expr α),
    Expr.accessesAll (Expr.mapAll f es) = (Expr.accessesAll es).map (Access.map f)
  | [] => rfl
  | e :: rest => by
    simp only [Expr.mapAll, Expr.accessesAll, List.map_append, e.accesses_map,
      Expr.accessesAll_mapAll rest]

end

private theorem Expr.accesses?_map (e : Option (Expr α)) :
    Expr.accesses? (e.map (Expr.map f)) = (Expr.accesses? e).map (Access.map f) := by
  cases e with
  | none => rfl
  | some e => exact e.accesses_map f

mutual

theorem Stmt.accesses_map : ∀ s : Stmt α, (s.map f).accesses = s.accesses.map (Access.map f)
  | .expression _ e | .print _ e => e.accesses_map f
  | .varDecl _ _ e | .returnStmt _ e => Expr.accesses?_map f e
  | .block _ body | .funDecl _ _ _ body => Program.accesses_map body
  | .ifElse _ c t none => by
    simp only [Stmt.map, Stmt.accesses, List.map_append, c.accesses_map f, t.accesses_map]
  | .ifElse _ c t (some e) => by
    simp only [Stmt.map, Stmt.accesses, List.map_append, c.accesses_map f, t.accesses_map,
      e.accesses_map]
  | .whileLoop _ c body => by
    simp only [Stmt.map, Stmt.accesses, List.map_append, c.accesses_map f, body.accesses_map]

theorem Program.accesses_map : ∀ p : Program α,
    Program.accesses (Program.map f p) = (Program.accesses p).map (Access.map f)
  | [] => rfl
  | s :: rest => by
    simp only [Program.map, Program.accesses, List.map_append, s.accesses_map,
      Program.accesses_map rest]

end

end Accesses

end Lox
