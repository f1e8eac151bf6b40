import Lox.Proofs.Parse.Follow

/-! Expressions are read alike at other places, with notes from a supply that keeps in step, and
with any depth that is enough for sixteen steps a token. -/

namespace Lox.Parse

variable {σ σ' ν ν' : Type} [Supply σ Position ν] [Supply σ' Position ν']

/-- Two ways to read an expression from so many tokens, of which the second follows the first. -/
abbrev FollowsExpr (v : Supply.Step σ σ') (ts : List Token) (n : Nat)
    (p : Parser σ (Expr ν)) (q : Parser σ' (Expr ν')) : Prop :=
  Follows v ts 0 n p q (Expr.map v.note) (Expr.Each (Mark.WrittenFor σ ts))

/-- What each step follows with another depth. -/
structure FollowsExpressions (v : Supply.Step σ σ') (ts : List Token) (depth depth' : Nat) :
    Prop where
  expression : ∀ n, 16 * n + 10 ≤ min depth depth' →
    FollowsExpr v ts n (expression depth) (expression depth')
  operation : ∀ n levels, levels <:+ infixLevels → 16 * n + 3 + levels.length ≤ min depth depth' →
    FollowsExpr v ts n (operation depth levels) (operation depth' levels)
  operationTail : ∀ n level tighter left, level :: tighter <:+ infixLevels →
    left.Each (Mark.WrittenFor σ ts) → 16 * n + 1 ≤ min depth depth' →
    FollowsExpr v ts n (operationTail depth level tighter left)
      (operationTail depth' level tighter (left.map v.note))
  unary : ∀ n, 16 * n + 2 ≤ min depth depth' → FollowsExpr v ts n (unary depth) (unary depth')
  callTail : ∀ n callee, callee.Each (Mark.WrittenFor σ ts) → 16 * n + 1 ≤ min depth depth' →
    FollowsExpr v ts n (callTail depth callee) (callTail depth' (callee.map v.note))
  arguments : ∀ n count, 16 * n + 11 ≤ min depth depth' →
    Follows v ts 0 n (arguments depth count) (arguments depth' count) (Expr.mapAll v.note)
      (Expr.EachOf (Mark.WrittenFor σ ts))
  primary : ∀ n, 16 * n + 1 ≤ min depth depth' →
    FollowsExpr v ts n (primary depth) (primary depth')

section

variable {v : Supply.Step σ σ'} {ts : List Token} {depth depth' n : Nat}

private theorem expression_follows (ih : FollowsExpressions v ts depth depth')
    (hn : 16 * n + 10 ≤ min (depth + 1) (depth' + 1)) :
    FollowsExpr v ts n (expression (depth + 1)) (expression (depth' + 1)) := by
  have hlevels : infixLevels.length = 6 := rfl
  rw [expression, expression]
  refine (ih.operation n infixLevels List.suffix_rfl (by omega)).bind fun target htarget => ?_
  refine follows_accept (follows_pure rfl htarget) fun sign m _ _ hm => ?_
  refine (ih.expression m (by omega)).bind fun value hvalue => ?_
  cases target with
  | reference note x =>
    refine follows_redraw fun note' hnote => follows_pure rfl ⟨?_, hvalue⟩
    rw [Mark.WrittenFor, hnote]
    exact htarget
  | _ => exact follows_reportAt (follows_pure rfl htarget)

private theorem operation_follows (ih : FollowsExpressions v ts depth depth')
    {levels : List (List (TokenKind × InfixOp))} (hlevels : levels <:+ infixLevels)
    (hn : 16 * n + 3 + levels.length ≤ min (depth + 1) (depth' + 1)) :
    FollowsExpr v ts n (operation (depth + 1) levels) (operation (depth' + 1) levels) := by
  cases levels with
  | nil =>
    rw [operation, operation]
    exact ih.unary n (by simp only [List.length_nil] at hn; omega)
  | cons level tighter =>
    rw [List.length_cons] at hn
    rw [operation, operation]
    have htighter : tighter <:+ infixLevels := (List.suffix_cons level tighter).trans hlevels
    refine (ih.operation n tighter htighter (by omega)).bind fun left hleft => ?_
    exact ih.operationTail n level tighter left hlevels hleft (by omega)

private theorem operationTail_follows (ih : FollowsExpressions v ts depth depth')
    {level : List (TokenKind × InfixOp)} {tighter : List (List (TokenKind × InfixOp))}
    (hlevels : level :: tighter <:+ infixLevels) {left : Expr ν}
    (hleft : left.Each (Mark.WrittenFor σ ts)) (hn : 16 * n + 1 ≤ min (depth + 1) (depth' + 1)) :
    FollowsExpr v ts n (operationTail (depth + 1) level tighter left)
      (operationTail (depth' + 1) level tighter (left.map v.note)) := by
  have hlevel : level ∈ infixLevels := hlevels.subset List.mem_cons_self
  have htighter : tighter <:+ infixLevels := (List.suffix_cons level tighter).trans hlevels
  have hlength : tighter.length + 1 ≤ 6 := hlevels.length_le
  rw [operationTail, operationTail]
  refine follows_acceptWith (follows_pure rfl hleft) fun op sign m hsign hop hm => ?_
  refine (ih.operation m tighter htighter (by omega)).bind fun right hright => ?_
  refine follows_draw fun note hnote => ?_
  have hbuilt : (op.build note left right).Each (Mark.WrittenFor σ ts) := by
    refine Expr.Each.build ?_ hleft hright
    rw [Mark.WrittenFor, hnote]
    exact .of_infixOp hsign hlevel hop
  have hmap : op.build (v.note note) (left.map v.note) (right.map v.note) =
      (op.build note left right).map v.note := by
    cases op <;> rfl
  rw [hmap]
  exact ih.operationTail m level tighter _ hlevels hbuilt (by omega)

private theorem unary_follows (ih : FollowsExpressions v ts depth depth')
    (hn : 16 * n + 2 ≤ min (depth + 1) (depth' + 1)) :
    FollowsExpr v ts n (unary (depth + 1)) (unary (depth' + 1)) := by
  rw [unary, unary]
  refine follows_acceptWith ?_ fun op sign m hsign hop hm => ?_
  · refine (ih.primary n (by omega)).bind fun callee hcallee => ?_
    exact ih.callTail n callee hcallee (by omega)
  · refine (ih.unary m (by omega)).bind fun operand hoperand => ?_
    refine follows_draw fun note hnote => ?_
    exact follows_pure rfl ⟨⟨sign, hsign, hop, hnote.symm⟩, hoperand⟩

private theorem callTail_follows (ih : FollowsExpressions v ts depth depth') {callee : Expr ν}
    (hcallee : callee.Each (Mark.WrittenFor σ ts))
    (hn : 16 * n + 1 ≤ min (depth + 1) (depth' + 1)) :
    FollowsExpr v ts n (callTail (depth + 1) callee)
      (callTail (depth' + 1) (callee.map v.note)) := by
  rw [callTail, callTail]
  refine follows_accept (follows_pure rfl hcallee) fun paren m hparen hkind hm => ?_
  have hrest (args : List (Expr ν)) (hargs : Expr.EachOf (Mark.WrittenFor σ ts) args) :
      FollowsExpr v ts m
        (do
          let _ ← expect .rightParen .parenAfterArguments
          callTail depth (.call (← draw paren.position) callee args))
        (do
          let _ ← expect .rightParen .parenAfterArguments
          callTail depth' (.call (← draw (v.position paren.position)) (callee.map v.note)
            (Expr.mapAll v.note args))) := by
    refine follows_expect fun _ m' _ _ hm' => follows_draw fun note hnote => ?_
    exact ih.callTail m' (.call note callee args)
      ⟨⟨paren, hparen, hkind, hnote.symm⟩, hcallee, hargs⟩ (by omega)
  refine follows_check fun closes => follows_ite ?_ ?_
  · exact (follows_pure (h := Expr.mapAll v.note) rfl trivial).bind hrest
  · exact (ih.arguments m 0 (by omega)).bind hrest

private theorem arguments_follows (ih : FollowsExpressions v ts depth depth') (count : Nat)
    (hn : 16 * n + 11 ≤ min (depth + 1) (depth' + 1)) :
    Follows v ts 0 n (arguments (depth + 1) count) (arguments (depth' + 1) count)
      (Expr.mapAll v.note)
      (Expr.EachOf (Mark.WrittenFor σ ts)) := by
  rw [arguments, arguments]
  refine follows_reportWhen ?_
  refine (ih.expression n (by omega)).bind fun arg harg => ?_
  refine follows_accept (follows_pure rfl ⟨harg, trivial⟩) fun comma m _ _ hm => ?_
  refine (ih.arguments m (count + 1) (by omega)).bind fun rest hrest => ?_
  exact follows_pure rfl ⟨harg, hrest⟩

private theorem primary_follows (ih : FollowsExpressions v ts depth depth')
    (hn : 16 * n + 1 ≤ min (depth + 1) (depth' + 1)) :
    FollowsExpr v ts n (primary (depth + 1)) (primary (depth' + 1)) := by
  rw [primary, primary]
  refine follows_operandToken ?_ fun e m he hm => follows_pure rfl he
  refine follows_accept follows_refusal fun paren m _ _ hm => ?_
  refine (ih.expression m (by omega)).bind fun inner hinner => ?_
  refine follows_expect fun _ _ _ _ _ => follows_draw fun note _ => ?_
  exact follows_pure rfl ⟨trivial, hinner⟩

end

theorem followsExpressions (v : Supply.Step σ σ') (ts : List Token) (depth depth' : Nat) :
    FollowsExpressions v ts depth depth' := by
  induction depth generalizing depth' with
  | zero => constructor <;> intros <;> omega
  | succ depth ih =>
    cases depth' with
    | zero => constructor <;> intros <;> omega
    | succ depth' =>
      exact {
        expression := fun _ => expression_follows (ih depth')
        operation := fun _ _ => operation_follows (ih depth')
        operationTail := fun _ _ _ _ hlevels => operationTail_follows (ih depth') hlevels
        unary := fun _ => unary_follows (ih depth')
        callTail := fun _ _ => callTail_follows (ih depth')
        arguments := fun _ count => arguments_follows (ih depth') count
        primary := fun _ => primary_follows (ih depth') }

end Lox.Parse
