import Lox.Parse.Expression
import Lox.Proofs.Tree.Loop

/-! Properties of all nodes of a tree, which relate what a node says by itself to its annotation. -/

namespace Lox

/-- What a node says by itself, apart from the nodes inside it. -/
inductive Mark where
  | plain
  | literal (value : Literal)
  /-- A name that is read or written. -/
  | access (name : Name)
  | unary (op : UnaryOp)
  | binary (op : BinaryOp)
  | logical (op : LogicalOp)
  | call
  /-- The names that a declaration binds, those of parameters included. -/
  | binding (names : List Name)

def InfixOp.mark : InfixOp → Mark
  | binary op => .binary op
  | logical op => .logical op

variable {α β γ : Type}

mutual

/-- All nodes of an expression have the property. -/
def Expr.Each (P : α → Mark → Prop) : Expr α → Prop
  | .binary n l op r => P n (.binary op) ∧ l.Each P ∧ r.Each P
  | .grouping n e => P n .plain ∧ e.Each P
  | .literal n v => P n (.literal v)
  | .unary n op e => P n (.unary op) ∧ e.Each P
  | .reference n x => P n (.access x)
  | .assign n x e => P n (.access x) ∧ e.Each P
  | .logical n l op r => P n (.logical op) ∧ l.Each P ∧ r.Each P
  | .call n c args => P n .call ∧ c.Each P ∧ Expr.EachOf P args

def Expr.EachOf (P : α → Mark → Prop) : List (Expr α) → Prop
  | [] => True
  | e :: rest => e.Each P ∧ Expr.EachOf P rest

end

/-- All nodes of an expression that may be absent have the property. -/
def Expr.Each? (P : α → Mark → Prop) (e : Option (Expr α)) : Prop := ∀ e' ∈ e, e'.Each P

mutual

/-- All nodes of a statement have the property. -/
def Stmt.Each (P : α → Mark → Prop) : Stmt α → Prop
  | .expression n e => P n .plain ∧ e.Each P
  | .print n e => P n .plain ∧ e.Each P
  | .varDecl n x e => P n (.binding [x]) ∧ Expr.Each? P e
  | .block n body => P n .plain ∧ Program.Each P body
  | .ifElse n c t none => P n .plain ∧ c.Each P ∧ t.Each P
  | .ifElse n c t (some e) => P n .plain ∧ c.Each P ∧ t.Each P ∧ e.Each P
  | .whileLoop n c body => P n .plain ∧ c.Each P ∧ body.Each P
  | .funDecl n x params body => P n (.binding (x :: params)) ∧ Program.Each P body
  | .returnStmt n e => P n .plain ∧ Expr.Each? P e

def Program.Each (P : α → Mark → Prop) : Program α → Prop
  | [] => True
  | s :: rest => s.Each P ∧ Program.Each P rest

end

section Map

variable {P : α → Mark → Prop} {Q : β → Mark → Prop} {f : α → β}

mutual

theorem Expr.Each.map (hf : ∀ n m, P n m → Q (f n) m) :
    ∀ e : Expr α, e.Each P → (e.map f).Each Q
  | .binary _ l _ r, h | .logical _ l _ r, h =>
    ⟨hf _ _ h.1, Expr.Each.map hf l h.2.1, Expr.Each.map hf r h.2.2⟩
  | .grouping _ e, h | .unary _ _ e, h | .assign _ _ e, h => ⟨hf _ _ h.1, Expr.Each.map hf e h.2⟩
  | .literal .., h | .reference .., h => hf _ _ h
  | .call _ c args, h => ⟨hf _ _ h.1, Expr.Each.map hf c h.2.1, Expr.EachOf.map hf args h.2.2⟩

theorem Expr.EachOf.map (hf : ∀ n m, P n m → Q (f n) m) :
    ∀ es : List (Expr α), Expr.EachOf P es → Expr.EachOf Q (Expr.mapAll f es)
  | [], _ => trivial
  | e :: es, h => ⟨Expr.Each.map hf e h.1, Expr.EachOf.map hf es h.2⟩

end

theorem Expr.Each?.map (hf : ∀ n m, P n m → Q (f n) m) {e : Option (Expr α)}
    (h : Expr.Each? P e) : Expr.Each? Q (e.map (·.map f)) := by
  intro e' he'
  obtain ⟨e, he, rfl⟩ := Option.map_eq_some_iff.mp he'
  exact Expr.Each.map hf e (h e he)

mutual

theorem Stmt.Each.map (hf : ∀ n m, P n m → Q (f n) m) :
    ∀ s : Stmt α, s.Each P → (s.map f).Each Q
  | .expression _ e, h | .print _ e, h => ⟨hf _ _ h.1, Expr.Each.map hf e h.2⟩
  | .varDecl .., h | .returnStmt .., h => ⟨hf _ _ h.1, Expr.Each?.map hf h.2⟩
  | .block _ body, h | .funDecl _ _ _ body, h => ⟨hf _ _ h.1, Program.Each.map hf body h.2⟩
  | .ifElse _ c t none, h => ⟨hf _ _ h.1, Expr.Each.map hf c h.2.1, Stmt.Each.map hf t h.2.2⟩
  | .ifElse _ c t (some e), h =>
    ⟨hf _ _ h.1, Expr.Each.map hf c h.2.1, Stmt.Each.map hf t h.2.2.1, Stmt.Each.map hf e h.2.2.2⟩
  | .whileLoop _ c body, h =>
    ⟨hf _ _ h.1, Expr.Each.map hf c h.2.1, Stmt.Each.map hf body h.2.2⟩

theorem Program.Each.map (hf : ∀ n m, P n m → Q (f n) m) :
    ∀ p : Program α, Program.Each P p → Program.Each Q (Program.map f p)
  | [], _ => trivial
  | s :: rest, h => ⟨Stmt.Each.map hf s h.1, Program.Each.map hf rest h.2⟩

end

end Map

section Map

mutual

theorem Expr.map_id : ∀ e : Expr α, e.map id = e
  | .binary _ l _ r | .logical _ l _ r => by simp only [Expr.map, l.map_id, r.map_id, id_eq]
  | .grouping _ e | .unary _ _ e | .assign _ _ e => by simp only [Expr.map, e.map_id, id_eq]
  | .literal .. | .reference .. => rfl
  | .call _ c args => by simp only [Expr.map, c.map_id, Expr.mapAll_id args, id_eq]

theorem Expr.mapAll_id : ∀ es : List (Expr α), Expr.mapAll id es = es
  | [] => rfl
  | e :: rest => by simp only [Expr.mapAll, e.map_id, Expr.mapAll_id rest]

end

private theorem Expr.map?_id (e : Option (Expr α)) : e.map (Expr.map id) = e := by
  cases e with
  | none => rfl
  | some e => exact congrArg some e.map_id

mutual

theorem Stmt.map_id : ∀ s : Stmt α, s.map id = s
  | .expression _ e | .print _ e => by simp only [Stmt.map, e.map_id, id_eq]
  | .varDecl _ _ e | .returnStmt _ e => by simp only [Stmt.map, Expr.map?_id e, id_eq]
  | .block _ body | .funDecl _ _ _ body => by simp only [Stmt.map, Program.map_id body, id_eq]
  | .ifElse _ c t none => by simp only [Stmt.map, c.map_id, t.map_id, id_eq]
  | .ifElse _ c t (some e) => by simp only [Stmt.map, c.map_id, t.map_id, e.map_id, id_eq]
  | .whileLoop _ c body => by simp only [Stmt.map, c.map_id, body.map_id, id_eq]

theorem Program.map_id : ∀ p : Program α, Program.map id p = p
  | [] => rfl
  | s :: rest => by simp only [Program.map, s.map_id, Program.map_id rest]

end

mutual

theorem Expr.map_map (f : α → β) (g : β → γ) :
    ∀ e : Expr α, (e.map f).map g = e.map fun n => g (f n)
  | .binary _ l _ r | .logical _ l _ r => by simp only [Expr.map, l.map_map f g, r.map_map f g]
  | .grouping _ e | .unary _ _ e | .assign _ _ e => by simp only [Expr.map, e.map_map f g]
  | .literal .. | .reference .. => rfl
  | .call _ c args => by simp only [Expr.map, c.map_map f g, Expr.mapAll_mapAll f g args]

theorem Expr.mapAll_mapAll (f : α → β) (g : β → γ) :
    ∀ es : List (Expr α), Expr.mapAll g (Expr.mapAll f es) = Expr.mapAll (fun n => g (f n)) es
  | [] => rfl
  | e :: rest => by simp only [Expr.mapAll, e.map_map f g, Expr.mapAll_mapAll f g rest]

end

private theorem Expr.map?_map (f : α → β) (g : β → γ) (e : Option (Expr α)) :
    (e.map (Expr.map f)).map (Expr.map g) = e.map (Expr.map fun n => g (f n)) := by
  cases e with
  | none => rfl
  | some e => exact congrArg some (e.map_map f g)

mutual

theorem Stmt.map_map (f : α → β) (g : β → γ) :
    ∀ s : Stmt α, (s.map f).map g = s.map fun n => g (f n)
  | .expression _ e | .print _ e => by simp only [Stmt.map, e.map_map f g]
  | .varDecl _ _ e | .returnStmt _ e => by simp only [Stmt.map, Expr.map?_map f g e]
  | .block _ body | .funDecl _ _ _ body => by simp only [Stmt.map, Program.map_map f g body]
  | .ifElse _ c t none => by simp only [Stmt.map, c.map_map f g, t.map_map f g]
  | .ifElse _ c t (some e) => by
    simp only [Stmt.map, c.map_map f g, t.map_map f g, e.map_map f g]
  | .whileLoop _ c body => by simp only [Stmt.map, c.map_map f g, body.map_map f g]

theorem Program.map_map (f : α → β) (g : β → γ) :
    ∀ p : Program α, Program.map g (Program.map f p) = Program.map (fun n => g (f n)) p
  | [] => rfl
  | s :: rest => by simp only [Program.map, s.map_map f g, Program.map_map f g rest]

end

theorem Program.map_append (f : α → β) (p q : Program α) :
    Program.map f (p ++ q) = Program.map f p ++ Program.map f q := by
  induction p with
  | nil => rfl
  | cons s rest ih => exact congrArg (List.cons (s.map f)) ih

theorem Program.map_toList (f : α → β) (s : Option (Stmt α)) :
    Program.map f s.toList = (s.map (Stmt.map f)).toList := by
  cases s <;> rfl

theorem Expr.note_map (f : α → β) (e : Expr α) : (e.map f).note = f e.note := by
  cases e <;> rfl

theorem Stmt.note_map (f : α → β) (s : Stmt α) : (s.map f).note = f s.note := by
  cases s with
  | ifElse n c t e => cases e <;> rfl
  | _ => rfl

theorem Stmt.map_forLoop (f : α → β) (n : α) (first : Option (Stmt α)) (c : Expr α)
    (increment : Option (Expr α)) (body : Stmt α) :
    (Stmt.forLoop n first c increment body).map f =
      .forLoop (f n) (first.map (Stmt.map f)) (c.map f) (increment.map (Expr.map f))
        (body.map f) := by
  have hfollowed : (body.followedBy increment).map f =
      (body.map f).followedBy (increment.map (Expr.map f)) := by
    cases increment with
    | none => rfl
    | some e =>
      simp only [followedBy, Option.map_some, Stmt.map, Program.map, note_map, Expr.note_map]
  cases first with
  | none => simp only [forLoop, Option.map_none, Stmt.map, hfollowed]
  | some s => simp only [forLoop, Option.map_some, Stmt.map, Program.map, hfollowed]

end Map

section Build

variable {P : α → Mark → Prop} {n : α}

theorem Expr.Each.build {op : InfixOp} (hn : P n op.mark) {left right : Expr α}
    (hleft : left.Each P) (hright : right.Each P) : (op.build n left right).Each P := by
  cases op with
  | binary op => exact ⟨hn, hleft, hright⟩
  | logical op => exact ⟨hn, hleft, hright⟩

theorem Program.Each.append {p q : Program α} (hp : Program.Each P p) (hq : Program.Each P q) :
    Program.Each P (p ++ q) := by
  induction p with
  | nil => exact hq
  | cons s rest ih => exact ⟨hp.1, ih hp.2⟩

end Build

end Lox
