import Lox.Parse.Program
import Lox.Proofs.Parse.Fresh

/-! Programs get keys of their own, whether they hold errors or not. -/

namespace Lox

namespace Parse

/-- The notes of a statement that may be absent. -/
def notesOf (s : Option (Stmt (Keyed Position))) : List (Keyed Position) :=
  (s.map Stmt.notes).getD []

section

variable {depth : Nat}

theorem expression_fresh_all (depth : Nat) :
    Fresh [] (expression depth) (Expr.notes (α := Keyed Position)) :=
  (freshExpressions depth).expression

theorem some_expression_fresh (depth : Nat) :
    Fresh [] (some <$> expression depth) (Expr.notes? (α := Keyed Position)) :=
  (expression_fresh_all depth).map fun _ => .refl _

theorem none_fresh : Fresh [] (pure none) (Expr.notes? (α := Keyed Position)) :=
  fresh_pure (.refl _)

private theorem parameters_fresh (depth count : Nat) :
    Fresh [] (parameters depth count) fun _ => ([] : List (Keyed Position)) := by
  induction depth generalizing count with
  | zero => exact fresh_stuck
  | succ depth ih =>
    rw [parameters]
    refine fresh_reportWhen (fresh_expect fun name => fresh_accept (fresh_pure (.refl _)) ?_)
    exact fun comma => (ih (count + 1)).bind fun rest => fresh_pure (.refl _)

theorem varDeclaration_fresh (depth : Nat) (start : Position) :
    Fresh [] (varDeclaration depth start) (Stmt.notes (α := Keyed Position)) := by
  rw [varDeclaration]
  refine fresh_expect fun name => ?_
  have hrest (e : Option (Expr (Keyed Position))) : Fresh (Expr.notes? e)
      (do
        let _ ← expect .semicolon .semicolonAfterDeclaration
        return .varDecl (← draw start) name.lexeme e)
      Stmt.notes :=
    fresh_expect fun _ => fresh_draw fun n => fresh_pure (.refl _)
  exact fresh_accept (none_fresh.bind hrest) fun sign => (some_expression_fresh depth).bind hrest

theorem expressionStatement_fresh (depth : Nat) :
    Fresh [] (expressionStatement depth) (Stmt.notes (α := Keyed Position)) := by
  rw [expressionStatement]
  refine fresh_place fun start => (expression_fresh_all depth).bind fun e => ?_
  exact fresh_expect fun _ => fresh_draw fun n => fresh_pure (.refl _)

private theorem printStatement_fresh (depth : Nat) (start : Position) :
    Fresh [] (printStatement depth start) (Stmt.notes (α := Keyed Position)) := by
  rw [printStatement]
  refine (expression_fresh_all depth).bind fun e => ?_
  exact fresh_expect fun _ => fresh_draw fun n => fresh_pure (.refl _)

private theorem returnStatement_fresh (depth : Nat) (start : Position) :
    Fresh [] (returnStatement depth start) (Stmt.notes (α := Keyed Position)) := by
  rw [returnStatement]
  have hrest (e : Option (Expr (Keyed Position))) : Fresh (Expr.notes? e)
      (do
        let _ ← expect .semicolon .semicolonAfterReturn
        return .returnStmt (← draw start) e)
      Stmt.notes :=
    fresh_expect fun _ => fresh_draw fun n => fresh_pure (.refl _)
  exact fresh_check fun ends =>
    fresh_ite (none_fresh.bind hrest) ((some_expression_fresh depth).bind hrest)

private theorem forInitializer_fresh (depth : Nat) : Fresh [] (forInitializer depth) notesOf := by
  rw [forInitializer]
  refine fresh_accept (fresh_accept ?_ fun word => ?_) fun _ => fresh_pure (.refl _)
  · exact (expressionStatement_fresh depth).map fun _ => .refl _
  · exact (varDeclaration_fresh depth word.position).map fun _ => .refl _

private theorem forCondition_fresh (depth : Nat) :
    Fresh [] (forCondition depth) (Expr.notes (α := Keyed Position)) := by
  rw [forCondition]
  refine fresh_check fun ends => fresh_ite (fresh_place fun start => ?_)
    (expression_fresh_all depth)
  exact fresh_draw fun n => fresh_pure (.refl _)

private theorem forIncrement_fresh (depth : Nat) :
    Fresh [] (forIncrement depth) (Expr.notes? (α := Keyed Position)) := by
  rw [forIncrement]
  exact fresh_check fun ends => fresh_ite none_fresh (some_expression_fresh depth)

/-- The increment is read before the body, and runs after it. -/
theorem followedBy_fresh (body : Stmt (Keyed Position))
    (increment : Option (Expr (Keyed Position))) :
    Fresh (Expr.notes? increment ++ body.notes) (followedBy body increment) Stmt.notes := by
  cases increment with
  | none => exact fresh_pure (.refl _)
  | some e =>
    refine fresh_draw fun l => fresh_draw fun m => fresh_pure ?_
    have hperm : (body.notes ++ (e.notes ++ [l])).Perm (e.notes ++ body.notes ++ [l]) := by
      rw [← List.append_assoc]
      exact List.perm_append_comm.append_right [l]
    simpa [Stmt.notes, Program.notes, Expr.notes?] using (hperm.append_right [m]).subperm

/-- The loop that a `for` stands for has the nodes of its clauses and new ones. -/
theorem forLoop_fresh (start : Position) (first : Option (Stmt (Keyed Position)))
    (c : Expr (Keyed Position)) (increment : Option (Expr (Keyed Position)))
    (body : Stmt (Keyed Position)) :
    Fresh (notesOf first ++ c.notes ++ (Expr.notes? increment ++ body.notes))
      (forLoop start first c increment body) Stmt.notes := by
  rw [forLoop]
  refine ((followedBy_fresh body increment).frame _).andThen fun round => fresh_draw fun n => ?_
  cases first with
  | none => exact fresh_pure (.refl _)
  | some s =>
    refine fresh_draw fun m => fresh_pure (List.Perm.of_eq ?_).subperm
    simp [Stmt.notes, Program.notes, notesOf]

end

/-- What the steps of a depth draw for programs. -/
structure FreshPrograms (depth : Nat) : Prop where
  declaration : Fresh [] (declaration depth) (Stmt.notes (α := Keyed Position))
  functionDeclaration : ∀ start,
    Fresh [] (functionDeclaration depth start) (Stmt.notes (α := Keyed Position))
  blockBody : Fresh [] (blockBody depth) (Program.notes (α := Keyed Position))
  statement : Fresh [] (statement depth) (Stmt.notes (α := Keyed Position))
  ifStatement : ∀ start, Fresh [] (ifStatement depth start) (Stmt.notes (α := Keyed Position))
  whileStatement : ∀ start,
    Fresh [] (whileStatement depth start) (Stmt.notes (α := Keyed Position))
  forStatement : ∀ start, Fresh [] (forStatement depth start) (Stmt.notes (α := Keyed Position))

section

variable {depth : Nat}

private theorem declaration_fresh (ih : FreshPrograms depth) :
    Fresh [] (declaration (depth + 1)) (Stmt.notes (α := Keyed Position)) := by
  rw [declaration]
  refine fresh_accept (fresh_accept ih.statement fun word => ?_) fun word => ?_
  · exact varDeclaration_fresh depth word.position
  · exact ih.functionDeclaration word.position

private theorem functionDeclaration_fresh (ih : FreshPrograms depth) (start : Position) :
    Fresh [] (functionDeclaration (depth + 1) start) (Stmt.notes (α := Keyed Position)) := by
  rw [functionDeclaration]
  refine fresh_expect fun name => fresh_expect fun _ => ?_
  have hrest (params : List Name) : Fresh []
      (do
        let _ ← expect .rightParen .parenAfterParameters
        let _ ← expect .leftBrace .braceBeforeBody
        let body ← blockBody depth
        return .funDecl (← draw start) name.lexeme params body)
      (Stmt.notes (α := Keyed Position)) := by
    refine fresh_expect fun _ => fresh_expect fun _ => ih.blockBody.bind fun body => ?_
    exact fresh_draw fun n => fresh_pure (.refl _)
  have hnone : Fresh [] (pure []) fun _ : List Name => ([] : List (Keyed Position)) :=
    fresh_pure (.refl _)
  exact fresh_check fun closes =>
    fresh_ite (hnone.bind hrest) ((parameters_fresh depth 0).bind hrest)

/-- A declaration, or what is left of one after an error, and those after it. -/
theorem fresh_declarations {first : Parser Nat (Stmt (Keyed Position))}
    {rest : Parser Nat (Program (Keyed Position))} (hfirst : Fresh [] first Stmt.notes)
    (hrest : Fresh [] rest Program.notes) :
    Fresh []
      (do
        let s ← recovering first
        let others ← rest
        return s.toList ++ others)
      Program.notes := by
  refine (fresh_recovering hfirst).bind fun s => hrest.bind fun others => fresh_pure ?_
  apply (List.Perm.of_eq _).subperm
  rw [Program.notes_append]
  cases s <;> simp [Program.notes]

private theorem blockBody_fresh (ih : FreshPrograms depth) :
    Fresh [] (blockBody (depth + 1)) (Program.notes (α := Keyed Position)) := by
  rw [blockBody]
  refine fresh_check fun closes => fresh_atEnd fun ends => fresh_ite ?_ ?_
  · exact fresh_expect fun _ => fresh_pure (.refl _)
  · exact fresh_declarations ih.declaration ih.blockBody

private theorem statement_fresh (ih : FreshPrograms depth) :
    Fresh [] (statement (depth + 1)) (Stmt.notes (α := Keyed Position)) := by
  rw [statement]
  refine fresh_accept ?_ fun word => printStatement_fresh depth word.position
  refine fresh_accept ?_ fun brace => ?_
  rotate_left
  · exact ih.blockBody.bind fun body => fresh_draw fun n => fresh_pure (.refl _)
  refine fresh_accept ?_ fun word => ih.ifStatement word.position
  refine fresh_accept ?_ fun word => ih.whileStatement word.position
  refine fresh_accept ?_ fun word => ih.forStatement word.position
  refine fresh_accept ?_ fun word => returnStatement_fresh depth word.position
  exact expressionStatement_fresh depth

private theorem ifStatement_fresh (ih : FreshPrograms depth) (start : Position) :
    Fresh [] (ifStatement (depth + 1) start) (Stmt.notes (α := Keyed Position)) := by
  rw [ifStatement]
  refine fresh_expect fun _ => (expression_fresh_all depth).bind fun c => fresh_expect fun _ => ?_
  refine ih.statement.bind fun s => fresh_accept ?_ fun _ => ih.statement.bind fun s' => ?_
  · exact fresh_draw fun n => fresh_pure (.refl _)
  · exact fresh_draw fun n => fresh_pure (.refl _)

private theorem whileStatement_fresh (ih : FreshPrograms depth) (start : Position) :
    Fresh [] (whileStatement (depth + 1) start) (Stmt.notes (α := Keyed Position)) := by
  rw [whileStatement]
  refine fresh_expect fun _ => (expression_fresh_all depth).bind fun c => fresh_expect fun _ => ?_
  exact ih.statement.bind fun s => fresh_draw fun n => fresh_pure (.refl _)

private theorem forStatement_fresh (ih : FreshPrograms depth) (start : Position) :
    Fresh [] (forStatement (depth + 1) start) (Stmt.notes (α := Keyed Position)) := by
  rw [forStatement]
  refine fresh_expect fun _ => (forInitializer_fresh depth).bind fun first => ?_
  refine (forCondition_fresh depth).bind fun c => fresh_expect fun _ => ?_
  refine (forIncrement_fresh depth).bind fun increment => fresh_expect fun _ => ?_
  refine ih.statement.bind fun body => ?_
  rw [List.append_assoc (_ ++ c.notes)]
  exact forLoop_fresh start first c increment body

end

private theorem freshPrograms (depth : Nat) : FreshPrograms depth := by
  induction depth with
  | zero => constructor <;> intros <;> exact fresh_stuck
  | succ depth ih =>
    exact {
      declaration := declaration_fresh ih
      functionDeclaration := functionDeclaration_fresh ih
      blockBody := blockBody_fresh ih
      statement := statement_fresh ih
      ifStatement := ifStatement_fresh ih
      whileStatement := whileStatement_fresh ih
      forStatement := forStatement_fresh ih }

private theorem program_fresh (depth : Nat) :
    Fresh [] (program depth) (Program.notes (α := Keyed Position)) := by
  induction depth with
  | zero => exact fresh_stuck
  | succ depth ih =>
    rw [program]
    refine fresh_atEnd fun ends => fresh_ite (fresh_pure (.refl _)) ?_
    exact fresh_declarations (freshPrograms depth).declaration ih

end Parse

/-- Every node of a text that is read with keys from `k` on has one of its own, with errors in the
text or without. -/
theorem drawn_parseTokensWith (k : Nat) (tokens : List Token) (stop : Position) :
    Drawn k (parseTokensWith k tokens stop).2
      (Program.notes (parseTokensWith k tokens stop).1.program) := by
  have hfresh := Parse.program_fresh (parseDepth tokens)
  have hle := hfresh.le ⟨tokens, stop, [], k⟩
  rw [parseTokensWith]
  dsimp only
  rcases h : Parse.program (ν := Keyed Position) (parseDepth tokens) ⟨tokens, stop, [], k⟩ with
    ⟨_ | p, c⟩
  · rw [h] at hle
    exact .nil hle
  · obtain ⟨new, hnew, hdrawn⟩ := hfresh.drawn _ p c h
    exact hdrawn.subperm hnew

end Lox
