import Lox.Proofs.Parse.Step
import Lox.Proofs.Tree.Drawn

/-! Steps of the parser that draw keys. A step starts with notes that were drawn before it; besides
some of these, what it reads has notes that the step has drawn itself. Notes may be given up on the
way, since a step can fail after it has made some, and then the keys are not used again. -/

namespace Lox

private theorem Cursor.resume_supply {σ : Type} (c : Cursor σ) : c.resume.supply = c.supply := by
  cases hc : c.rest <;> simp [resume, hc]

private theorem Token.notes_of_operand? {ν : Type} {t : Token} {note : ν} {e : Expr ν}
    (h : t.operand? note = some e) : e.notes = [note] := by
  unfold operand? at h
  split at h <;> cases h <;> rfl

namespace Parse

variable {α β : Type}

/-- What the step reads is made of the notes that are `given` and of those that the step draws. -/
structure Fresh (given : List (Keyed Position)) (p : Parser Nat α)
    (notes : α → List (Keyed Position)) : Prop where
  le : ∀ c, c.supply ≤ (p c).2.supply
  drawn : ∀ c a c', p c = (some a, c') →
    ∃ new, (notes a).Subperm (given ++ new) ∧ Drawn c.supply c'.supply new

variable {given given' : List (Keyed Position)} {p : Parser Nat α} {f : α → Parser Nat β}
  {notes : α → List (Keyed Position)} {notes' : β → List (Keyed Position)}

/-- Notes that a step does not know of are as they were. -/
theorem Fresh.frame (hp : Fresh given p notes) (others : List (Keyed Position)) :
    Fresh (others ++ given) p fun a => others ++ notes a := by
  refine ⟨hp.le, fun c a c' hc => ?_⟩
  obtain ⟨new, hnew, hdrawn⟩ := hp.drawn c a c' hc
  refine ⟨new, ?_, hdrawn⟩
  rw [List.append_assoc]
  exact (List.subperm_append_left others).mpr hnew

/-- One step after the other. -/
theorem Fresh.andThen (hp : Fresh given p notes) (hf : ∀ a, Fresh (notes a) (f a) notes') :
    Fresh given (p >>= f) notes' := by
  constructor
  · intro c
    have hle := hp.le c
    rcases h : p c with ⟨_ | a, c'⟩
    · rw [bind_of_none h]
      rwa [h] at hle
    · rw [bind_of_some h]
      rw [h] at hle
      exact Nat.le_trans hle ((hf a).le c')
  · intro c b c'' hc
    rcases h : p c with ⟨_ | a, c'⟩
    · rw [bind_of_none h] at hc
      cases hc
    · rw [bind_of_some h] at hc
      obtain ⟨new, hnew, hdrawn⟩ := hp.drawn c a c' h
      obtain ⟨new', hnew', hdrawn'⟩ := (hf a).drawn c' b c'' hc
      refine ⟨new ++ new', hnew'.trans ?_, hdrawn.append hdrawn'⟩
      rw [← List.append_assoc]
      exact (List.subperm_append_right new').mpr hnew

/-- After a step that needs none of the notes, there are its own as well. -/
theorem Fresh.bind (hp : Fresh [] p notes) (hf : ∀ a, Fresh (given ++ notes a) (f a) notes') :
    Fresh given (p >>= f) notes' := by
  have hframe := hp.frame given
  rw [List.append_nil] at hframe
  exact hframe.andThen hf

theorem Fresh.map {g : α → β} (hp : Fresh given p notes)
    (hg : ∀ a, (notes' (g a)).Subperm (notes a)) : Fresh given (g <$> p) notes' := by
  rw [map_eq_pure_bind]
  refine hp.andThen fun a => ⟨fun _ => Nat.le_refl _, ?_⟩
  rintro c b c' ⟨⟩
  refine ⟨[], ?_, .nil (Nat.le_refl _)⟩
  rw [List.append_nil]
  exact hg a

theorem fresh_pure {a : α} (h : (notes a).Subperm given) : Fresh given (pure a) notes := by
  refine ⟨fun _ => Nat.le_refl _, ?_⟩
  rintro c b c' ⟨⟩
  refine ⟨[], ?_, .nil (Nat.le_refl _)⟩
  rwa [List.append_nil]

theorem fresh_stuck : Fresh given (stuck : Parser Nat α) notes := ⟨fun _ => Nat.le_refl _, nofun⟩

theorem fresh_ite {b : Prop} [Decidable b] {q : Parser Nat α} (hp : Fresh given p notes)
    (hq : Fresh given q notes) : Fresh given (if b then p else q) notes := by
  split
  · exact hp
  · exact hq

/-- A step that makes no node. -/
theorem fresh_still (hp : ∀ c, (p c).2.supply = c.supply) (hf : ∀ a, Fresh given (f a) notes') :
    Fresh given (p >>= f) notes' := by
  have hstill : Fresh [] p fun _ => [] := by
    refine ⟨fun c => Nat.le_of_eq (hp c).symm, fun c a c' hc => ⟨[], .refl [], .nil ?_⟩⟩
    have hsupply := hp c
    rw [hc] at hsupply
    exact Nat.le_of_eq hsupply.symm
  refine hstill.bind fun a => ?_
  rw [List.append_nil]
  exact hf a

theorem acceptWith_supply {γ : Type} (select : TokenKind → Option γ) (c : Cursor Nat) :
    (acceptWith select c).2.supply = c.supply := by
  unfold acceptWith
  split
  · rfl
  · split <;> rfl

private theorem accept_supply (kind : TokenKind) (c : Cursor Nat) :
    (accept kind c).2.supply = c.supply := by
  rw [← acceptWith_supply (fun k => if k = kind then some () else none) c]
  unfold accept
  rcases h : acceptWith (fun k => if k = kind then some () else none) c with ⟨_ | taken, c'⟩
  · rw [bind_of_none h]
  · rw [bind_of_some h]
    rfl

theorem report_supply (e : Expectation) (c : Cursor Nat) : (report e c).2.supply = c.supply := by
  unfold report
  split <;> rfl

theorem fresh_check {kind : TokenKind} {f : Bool → Parser Nat β}
    (hf : ∀ b, Fresh given (f b) notes') : Fresh given (check kind >>= f) notes' :=
  fresh_still (fun _ => rfl) hf

theorem fresh_atEnd {f : Bool → Parser Nat β} (hf : ∀ b, Fresh given (f b) notes') :
    Fresh given (atEnd >>= f) notes' :=
  fresh_still (fun _ => rfl) hf

theorem fresh_place {f : Position → Parser Nat β} (hf : ∀ p, Fresh given (f p) notes') :
    Fresh given (place >>= f) notes' :=
  fresh_still (fun _ => rfl) hf

/-- Goes on with or without a token that `select` accepts. -/
theorem fresh_acceptWith {γ : Type} {select : TokenKind → Option γ}
    {f : Option (γ × Token) → Parser Nat β} (hnone : Fresh given (f none) notes')
    (hsome : ∀ a t, Fresh given (f (some (a, t))) notes') :
    Fresh given (acceptWith select >>= f) notes' := by
  refine fresh_still (acceptWith_supply select) fun taken => ?_
  cases taken with
  | none => exact hnone
  | some taken => exact hsome taken.1 taken.2

/-- Goes on with or without a token of a kind. -/
theorem fresh_accept {kind : TokenKind} {f : Option Token → Parser Nat β}
    (hnone : Fresh given (f none) notes') (hsome : ∀ t, Fresh given (f (some t)) notes') :
    Fresh given (accept kind >>= f) notes' := by
  refine fresh_still (accept_supply kind) fun taken => ?_
  cases taken with
  | none => exact hnone
  | some t => exact hsome t

private theorem fresh_reportAt {t : Token} {e : Expectation} {f : Unit → Parser Nat β}
    (hf : Fresh given (f ()) notes') : Fresh given (reportAt t e >>= f) notes' :=
  fresh_still (fun _ => rfl) fun _ => hf

theorem fresh_reportWhen {guard : Prop} [Decidable guard] {e : Expectation}
    (hp : Fresh given p notes) :
    Fresh given (if guard then report e >>= fun _ => p else p) notes :=
  fresh_ite (fresh_still (report_supply e) fun _ => hp) hp

private theorem fresh_refuse {e : Expectation} : Fresh given (refuse e : Parser Nat α) notes :=
  fresh_still (report_supply e) fun _ => fresh_stuck

/-- Goes on after a token of a kind. -/
theorem fresh_expect {kind : TokenKind} {e : Expectation} {f : Token → Parser Nat β}
    (hf : ∀ t, Fresh given (f t) notes') : Fresh given (expect kind e >>= f) notes' := by
  simp only [expect, bind_assoc]
  refine fresh_accept ?_ fun t => ?_
  · simp only [refuse, bind_assoc]
    exact fresh_still (report_supply e) fun _ => fresh_stuck
  · simpa using hf t

/-- Makes a note for a new node. -/
theorem fresh_draw {position : Position} {f : Keyed Position → Parser Nat β}
    (hf : ∀ n, Fresh (given ++ [n]) (f n) notes') : Fresh given (draw position >>= f) notes' := by
  have hdraw : Fresh [] (draw position : Parser Nat (Keyed Position)) fun n => [n] := by
    refine ⟨fun _ => Nat.le_succ _, ?_⟩
    rintro c n c' ⟨⟩
    exact ⟨[_], .refl _, .one c.supply position⟩
  exact hdraw.bind hf

/-- Goes on with or without an operand of a single token. -/
theorem fresh_operandToken {f : Option (Expr (Keyed Position)) → Parser Nat β}
    (hnone : Fresh given (f none) notes')
    (hsome : ∀ e, Fresh (given ++ e.notes) (f (some e)) notes') :
    Fresh given (operandToken >>= f) notes' := by
  have hoperand : Fresh [] operandToken (Expr.notes? (α := Keyed Position)) := by
    constructor
    · rintro ⟨_ | ⟨t, rest⟩, stop, errors, k⟩
      · exact Nat.le_refl k
      · cases h : t.operand? (⟨k, t.position⟩ : Keyed Position) <;> simp [operandToken, h]
    · rintro ⟨_ | ⟨t, rest⟩, stop, errors, k⟩ a c' hc
      · cases hc
        exact ⟨[], .refl [], .nil (Nat.le_refl k)⟩
      · cases h : t.operand? (⟨k, t.position⟩ : Keyed Position) with
        | none =>
          simp only [operandToken, Supply.draw_nat, h] at hc
          cases hc
          exact ⟨[], .refl [], .nil (Nat.le_refl k)⟩
        | some e =>
          simp only [operandToken, Supply.draw_nat, h] at hc
          cases hc
          refine ⟨[⟨k, t.position⟩], ?_, .one k t.position⟩
          rw [Expr.notes?, Option.map_some, Option.getD_some, Token.notes_of_operand? h]
          exact .refl _
  refine hoperand.bind fun taken => ?_
  cases taken with
  | none =>
    rw [Expr.notes?, Option.map_none, Option.getD_none, List.append_nil]
    exact hnone
  | some e => exact hsome e

/-- Where a step gives up, the keys of what it has made are not used again. -/
theorem fresh_recovering (hp : Fresh [] p notes) :
    Fresh [] (recovering p) fun a => (a.map notes).getD [] := by
  constructor
  · intro c
    have hle := hp.le c
    rcases h : p c with ⟨_ | a, c'⟩
    · rw [h] at hle
      simpa only [recovering, h, Cursor.resume_supply] using hle
    · rw [h] at hle
      simpa only [recovering, h] using hle
  · intro c taken c'' hc
    have hle := hp.le c
    rcases h : p c with ⟨_ | a, c'⟩
    · rw [h] at hle
      rw [recovering, h] at hc
      cases hc
      exact ⟨[], .refl [], .nil (by rwa [Cursor.resume_supply])⟩
    · rw [recovering, h] at hc
      cases hc
      exact hp.drawn c a _ h

/-- What the steps of a depth draw for expressions. -/
structure FreshExpressions (depth : Nat) : Prop where
  expression : Fresh [] (expression depth) (Expr.notes (α := Keyed Position))
  operation : ∀ levels, Fresh [] (operation depth levels) (Expr.notes (α := Keyed Position))
  operationTail : ∀ level tighter (left : Expr (Keyed Position)),
    Fresh left.notes (operationTail depth level tighter left) Expr.notes
  unary : Fresh [] (unary depth) (Expr.notes (α := Keyed Position))
  callTail : ∀ callee : Expr (Keyed Position),
    Fresh callee.notes (callTail depth callee) Expr.notes
  arguments : ∀ count, Fresh [] (arguments depth count) (Expr.notesAll (α := Keyed Position))
  primary : Fresh [] (primary depth) (Expr.notes (α := Keyed Position))

section

variable {depth : Nat}

private theorem expression_fresh (ih : FreshExpressions depth) :
    Fresh [] (expression (depth + 1)) (Expr.notes (α := Keyed Position)) := by
  rw [expression]
  refine (ih.operation infixLevels).bind fun target => fresh_accept (fresh_pure (.refl _)) ?_
  intro sign
  refine ih.expression.bind fun value => ?_
  have hkept : target.notes.Subperm (target.notes ++ value.notes) :=
    (List.sublist_append_left _ _).subperm
  cases target with
  | reference note x =>
    -- the reference itself is given up, and the assignment gets a key of its own
    refine fresh_draw fun n => fresh_pure ?_
    exact (List.sublist_append_right [note] (value.notes ++ [n])).subperm
  | _ => exact fresh_reportAt (fresh_pure hkept)

private theorem operation_fresh (ih : FreshExpressions depth)
    (levels : List (List (TokenKind × InfixOp))) :
    Fresh [] (operation (depth + 1) levels) (Expr.notes (α := Keyed Position)) := by
  cases levels with
  | nil =>
    rw [operation]
    exact ih.unary
  | cons level tighter =>
    rw [operation]
    exact (ih.operation tighter).bind fun left => ih.operationTail level tighter left

private theorem operationTail_fresh (ih : FreshExpressions depth)
    (level : List (TokenKind × InfixOp))
    (tighter : List (List (TokenKind × InfixOp))) (left : Expr (Keyed Position)) :
    Fresh left.notes (operationTail (depth + 1) level tighter left) Expr.notes := by
  rw [operationTail]
  refine fresh_acceptWith (fresh_pure (.refl _)) fun op sign => ?_
  refine (ih.operation tighter).bind fun right => fresh_draw fun n => ?_
  have hbuilt : (op.build n left right).notes = left.notes ++ right.notes ++ [n] := by
    cases op <;> rfl
  rw [← hbuilt]
  exact ih.operationTail level tighter _

private theorem unary_fresh (ih : FreshExpressions depth) :
    Fresh [] (unary (depth + 1)) (Expr.notes (α := Keyed Position)) := by
  rw [unary]
  refine fresh_acceptWith ?_ fun op sign => ?_
  · exact ih.primary.bind fun callee => ih.callTail callee
  · exact ih.unary.bind fun operand => fresh_draw fun n => fresh_pure (.refl _)

private theorem callTail_fresh (ih : FreshExpressions depth) (callee : Expr (Keyed Position)) :
    Fresh callee.notes (callTail (depth + 1) callee) Expr.notes := by
  rw [callTail]
  refine fresh_accept (fresh_pure (.refl _)) fun paren => ?_
  have hrest (args : List (Expr (Keyed Position))) : Fresh (callee.notes ++ Expr.notesAll args)
      (do
        let _ ← expect .rightParen .parenAfterArguments
        callTail depth (.call (← draw paren.position) callee args))
      Expr.notes :=
    fresh_expect fun _ => fresh_draw fun n => ih.callTail (.call n callee args)
  have hnone : Fresh [] (pure []) (Expr.notesAll (α := Keyed Position)) := fresh_pure (.refl _)
  exact fresh_check fun closes => fresh_ite (hnone.bind hrest) ((ih.arguments 0).bind hrest)

private theorem arguments_fresh (ih : FreshExpressions depth) (count : Nat) :
    Fresh [] (arguments (depth + 1) count) (Expr.notesAll (α := Keyed Position)) := by
  rw [arguments]
  refine fresh_reportWhen (ih.expression.bind fun arg => fresh_accept ?_ fun comma => ?_)
  · refine fresh_pure ?_
    rw [Expr.notesAll, Expr.notesAll, List.append_nil]
    exact .refl _
  · exact (ih.arguments (count + 1)).bind fun rest => fresh_pure (.refl _)

private theorem primary_fresh (ih : FreshExpressions depth) :
    Fresh [] (primary (depth + 1)) (Expr.notes (α := Keyed Position)) := by
  rw [primary]
  refine fresh_operandToken (fresh_accept fresh_refuse fun paren => ?_) fun e => ?_
  · refine ih.expression.bind fun inner => fresh_expect fun _ => fresh_draw fun n => ?_
    exact fresh_pure (.refl _)
  · exact fresh_pure (.refl _)

end

theorem freshExpressions (depth : Nat) : FreshExpressions depth := by
  induction depth with
  | zero => constructor <;> intros <;> exact fresh_stuck
  | succ depth ih =>
    exact {
      expression := expression_fresh ih
      operation := operation_fresh ih
      operationTail := operationTail_fresh ih
      unary := unary_fresh ih
      callTail := callTail_fresh ih
      arguments := arguments_fresh ih
      primary := primary_fresh ih }

end Parse

end Lox
