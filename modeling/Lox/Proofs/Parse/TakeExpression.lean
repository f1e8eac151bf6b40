import Lox.Proofs.Parse.ReadExpression
import Lox.Proofs.Parse.Takes

/-! The parser reads the tokens of every expression of the grammar. What may come after them is
what does not continue the expression. -/

namespace Lox.Parse

open Grammar

/-- Whether a token after operands of a level belongs to them. -/
def continues (level : Option Level) (kind : TokenKind) : Bool :=
  kind = .leftParen || (Level.rows level).any fun row => (row.lookup kind).isSome

theorem continues_some (l : Level) (kind : TokenKind) :
    continues (some l) kind = ((l.operator? kind).isSome || continues l.tighter kind) := by
  unfold continues
  rw [Level.rows_some, List.any_cons, Level.lookup_row]
  cases decide (kind = .leftParen) <;> simp

/-- An operator is not part of its left operand. -/
theorem continues_operator {l : Level} {kind : TokenKind} {op : InfixOp}
    (h : l.operator? kind = some op) : continues l.tighter kind = false := by
  cases l <;> cases kind <;> first | rfl | cases h

private theorem length_rows_le (level : Option Level) : (Level.rows level).length ≤ 6 := by
  rcases level with _ | l
  · decide
  · cases l <;> decide

/-- Nothing in `rest` belongs to operands of a level before it. -/
def Ends (level : Option Level) (rest : List Token) : Prop :=
  ∀ t, rest.head? = some t → continues level t.kind = false

/-- Nothing in `rest` belongs to an expression before it. -/
def EndsExpression (rest : List Token) : Prop :=
  Ends (some .logicOr) rest ∧ NotNext .equal rest

theorem IsNext.ends {kind : TokenKind} {level : Option Level} {rest : List Token}
    (h : IsNext kind rest) (hk : continues level kind = false) : Ends level rest := by
  obtain ⟨t, us, rfl, ht⟩ := h
  intro u hu
  cases hu
  rwa [ht]

/-- An expression ends before a closing parenthesis, a semicolon and a comma. -/
theorem IsNext.endsExpression {kind : TokenKind} {rest : List Token} (h : IsNext kind rest)
    (hk : kind ∈ [.rightParen, .semicolon, .comma]) : EndsExpression rest := by
  constructor
  · refine h.ends ?_
    revert hk
    cases kind <;> decide
  · refine h.notNext ?_
    revert hk
    cases kind <;> decide

theorem Ends.tighter {l : Level} {rest : List Token} (h : Ends (some l) rest) :
    Ends l.tighter rest := by
  intro t ht
  have hl := h t ht
  rw [continues_some, Bool.or_eq_false_iff] at hl
  exact hl.2

private theorem Ends.notOperator {l : Level} {rest : List Token} (h : Ends (some l) rest)
    (t : Token) (ht : rest.head? = some t) : l.operator? t.kind = none := by
  have hl := h t ht
  rw [continues_some, Bool.or_eq_false_iff] at hl
  simpa using hl.1

private theorem Ends.notCall {level : Option Level} {rest : List Token} (h : Ends level rest) :
    NotNext .leftParen rest := by
  intro t ht hk
  have hl := h t ht
  rw [continues, hk] at hl
  simp at hl

/-- One argument or more, and no more than are allowed together with `count` others. -/
def ReadsArguments (es : List (Expr Position)) (ts : List Token) : Prop :=
  ∀ depth count rest, 16 * ts.length + 11 ≤ depth → count + es.length ≤ argumentLimit →
    IsNext .rightParen rest → Takes (arguments depth count) es ts rest

def ReadsParameters (xs : List Name) (ts : List Token) : Prop :=
  ∀ depth count rest, 16 * ts.length + 1 ≤ depth → count + xs.length ≤ argumentLimit →
    IsNext .rightParen rest → Takes (parameters depth count) xs ts rest

def ReadsExpression (e : Expr Position) (ts : List Token) : Prop :=
  ∀ depth rest, 16 * ts.length + 10 ≤ depth → EndsExpression rest →
    Takes (expression depth) e ts rest

/-- The parser reads the tokens as the phrase, wherever nothing that comes after them belongs to
the phrase. -/
def Reads : Phrase → List Token → Prop
  | .expression e, ts => ReadsExpression e ts
  | .operation level e, ts => ∀ depth rest,
    16 * ts.length + 3 + (Level.rows level).length ≤ depth → Ends level rest →
      Takes (operation depth (Level.rows level)) e ts rest
  | .operators l left e, ts => ∀ depth rest, 16 * ts.length + 1 ≤ depth → Ends (some l) rest →
    Takes (operationTail depth l.row (Level.rows l.tighter) left) e ts rest
  | .calls callee e, ts => ∀ depth rest, 16 * ts.length + 1 ≤ depth → NotNext .leftParen rest →
    Takes (callTail depth callee) e ts rest
  | .primary e, ts => ∀ depth rest, 16 * ts.length + 1 ≤ depth → Takes (primary depth) e ts rest
  | .arguments es, ts => es = [] ∧ ts = [] ∨ es.length ≤ argumentLimit ∧ ReadsArguments es ts ∧
    ∀ rest, NotNext .rightParen (ts ++ rest)
  | .argumentList es, ts => ReadsArguments es ts
  | .parameters xs, ts => xs = [] ∧ ts = [] ∨ xs.length ≤ argumentLimit ∧ ReadsParameters xs ts ∧
    ∀ rest, NotNext .rightParen (ts ++ rest)
  | .parameterList xs, ts => ReadsParameters xs ts
  | .optional none, ts => ts = []
  | .optional (some e), ts => ReadsExpression e ts ∧
    ∀ rest, NotNext .semicolon (ts ++ rest) ∧ NotNext .rightParen (ts ++ rest)
  | .initializer none, ts => ts = []
  | .initializer (some e), ts => ∃ sign us, ts = sign :: us ∧ sign.kind = .equal ∧
    ReadsExpression e us
  | .varDecl s, ts => ∃ word us, ts = word :: us ∧ word.kind = .varWord ∧
    ∀ depth rest, 16 * us.length + 10 ≤ depth → Takes (varDeclaration depth word.position) s us rest
  | .exprStmt s, ts => ∀ depth rest, 16 * ts.length + 10 ≤ depth →
    Takes (expressionStatement depth) s ts rest
  | .forClause s, ts => ∀ depth rest, 16 * ts.length + 10 ≤ depth →
    Takes (forInitializer depth) s ts rest
  | .statement isOpen s, ts => ∀ depth rest, 16 * ts.length + 11 ≤ depth →
    (isOpen → NotNext .elseWord rest) → Takes (statement depth) s ts rest
  | .declaration s, ts => ∀ depth rest, 16 * ts.length + 12 ≤ depth → NotNext .elseWord rest →
    Takes (declaration depth) s ts rest
  | .declarations p, ts =>
    (∀ depth rbrace rest, 16 * ts.length + 13 ≤ depth → rbrace.kind = .rightBrace →
      Takes (blockBody depth) p (ts ++ [rbrace]) rest) ∧
    ∀ depth, 16 * ts.length + 13 ≤ depth → Takes (program depth) p ts []

theorem notNext_of_derives {nearest : Bool} {ph : Phrase} {ts : List Token} {kinds : List TokenKind}
    {kind : TokenKind} (h : Derives nearest ph ts) (hk : ph.starts? = some kinds)
    (hkind : kind ∉ kinds) (rest : List Token) : NotNext kind (ts ++ rest) := by
  obtain ⟨t, ht, hmem⟩ := h.start hk
  intro u hu
  rw [List.head?_append, ht] at hu
  cases hu
  intro hu
  exact hkind (hu ▸ hmem)

section

variable {nearest : Bool} {ts us rest : List Token} {e left right callee : Expr Position}
  {es : List (Expr Position)} {l : Level} {sign lparen rparen comma : Token}

theorem takes_expression (h : Reads (.operation (some .logicOr) e) ts) :
    Reads (.expression e) ts := by
  intro depth rest hdepth hends
  rcases depth with _ | depth
  · omega
  · rw [expression_plain]
    have hrows : (Level.rows (some .logicOr)).length = 6 := rfl
    exact (h depth rest (by omega) hends.1).bind_last (takes_accept_none hends.2 takes_pure)

theorem takes_assignment {name : Token} (hsign : sign.kind = .equal)
    (hname : Reads (.operation (some .logicOr) (.reference name.position name.lexeme)) [name])
    (h : Reads (.expression e) ts) :
    Reads (.expression (.assign name.position name.lexeme e)) (name :: sign :: ts) := by
  intro depth rest hdepth hends
  rcases depth with _ | depth
  · omega
  · rw [expression_plain]
    have hrows : (Level.rows (some .logicOr)).length = 6 := rfl
    simp only [List.length_cons] at hdepth
    refine (hname depth (sign :: ts ++ rest) (by simp; omega) ?_).bind ?_
    · exact (IsNext.cons hsign).ends rfl
    · exact takes_accept hsign ((h depth rest (by omega) hends).bind_last takes_pure)

theorem takes_level (hleft : Reads (.operation l.tighter left) ts)
    (hops : Reads (.operators l left e) us)
    (hnext : ∀ rest, Ends (some l) rest → Ends l.tighter (us ++ rest)) :
    Reads (.operation (some l) e) (ts ++ us) := by
  intro depth rest hdepth hends
  rw [Level.rows_some] at hdepth ⊢
  simp only [List.length_append, List.length_cons] at hdepth
  rcases depth with _ | depth
  · omega
  · rw [operation]
    exact (hleft depth _ (by omega) (hnext rest hends)).bind (hops depth rest (by omega) hends)

theorem takes_noOperator : Reads (.operators l left left) [] := by
  intro depth rest hdepth hends
  rcases depth with _ | depth
  · omega
  · rw [operationTail_plain]
    refine takes_acceptWith_none (fun t ht => ?_) takes_pure
    rw [Level.lookup_row]
    exact hends.notOperator t ht

theorem takes_moreOperators {op : InfixOp} (hsign : l.operator? sign.kind = some op)
    (hright : Reads (.operation l.tighter right) ts)
    (hops : Reads (.operators l (op.build sign.position left right) e) us)
    (hnext : ∀ rest, Ends (some l) rest → Ends l.tighter (us ++ rest)) :
    Reads (.operators l left e) (sign :: (ts ++ us)) := by
  intro depth rest hdepth hends
  have hrows := length_rows_le l.tighter
  simp only [List.length_append, List.length_cons] at hdepth
  rcases depth with _ | depth
  · omega
  · rw [operationTail_plain]
    refine takes_acceptWith (c := op) (by rw [Level.lookup_row, hsign]) ?_
    exact (hright depth _ (by omega) (hnext rest hends)).bind (hops depth rest (by omega) hends)

/-- After an operand comes an operator of its level, or what comes after the operation. -/
theorem ends_operators (h : Derives nearest (.operators l left e) us) (hends : Ends (some l) rest) :
    Ends l.tighter (us ++ rest) := by
  cases h with
  | noOperator => exact hends.tighter
  | moreOperators hsign =>
    intro t ht
    cases ht
    exact continues_operator hsign

theorem takes_unary {op : UnaryOp} (hsign : unaryOperator? sign.kind = some op)
    (h : Reads (.operation none e) ts) :
    Reads (.operation none (.unary sign.position op e)) (sign :: ts) := by
  intro depth rest hdepth hends
  have hrows : (Level.rows none).length = 0 := rfl
  simp only [List.length_cons] at hdepth
  rcases depth with _ | _ | depth
  · omega
  · omega
  · show Takes (unary (depth + 1)) _ _ _
    rw [unary_plain]
    refine takes_acceptWith (c := op) (by rw [lookup_unaryOps, hsign]) ?_
    have hoperand : Takes (unary depth) e ts rest := h (depth + 1) rest (by omega) hends
    exact hoperand.bind_last takes_pure

theorem takes_call (hcallee : Reads (.primary callee) ts) (hcalls : Reads (.calls callee e) us)
    (hstart : ∀ t, ts.head? = some t → unaryOperator? t.kind = none) (hne : ts ≠ []) :
    Reads (.operation none e) (ts ++ us) := by
  intro depth rest hdepth hends
  simp only [List.length_append] at hdepth
  rcases depth with _ | _ | depth
  · omega
  · omega
  · show Takes (unary (depth + 1)) _ _ _
    rw [unary_plain]
    refine takes_acceptWith_none (fun t ht => ?_) ?_
    · rw [lookup_unaryOps]
      rcases ts with _ | ⟨u, ts⟩
      · exact absurd rfl hne
      · exact hstart t ht
    · exact (hcallee depth _ (by omega)).bind (hcalls depth rest (by omega) hends.notCall)

theorem takes_noCall : Reads (.calls callee callee) [] := by
  intro depth rest hdepth hnext
  rcases depth with _ | depth
  · omega
  · rw [callTail_plain]
    exact takes_accept_none hnext takes_pure

theorem takes_moreCalls (hlparen : lparen.kind = .leftParen) (hes : Reads (.arguments es) ts)
    (hrparen : rparen.kind = .rightParen)
    (hcalls : Reads (.calls (.call lparen.position callee es) e) us) :
    Reads (.calls callee e) (lparen :: (ts ++ rparen :: us)) := by
  intro depth rest hdepth hnext
  simp only [List.length_append, List.length_cons] at hdepth
  rcases depth with _ | depth
  · omega
  · rw [callTail_plain]
    refine takes_accept hlparen ?_
    have hrest : Takes (do
        let _ ← expect .rightParen .parenAfterArguments
        callTail depth (.call lparen.position callee es)) e (rparen :: us) rest :=
      takes_expect hrparen (hcalls depth rest (by omega) hnext)
    rcases hes with ⟨rfl, rfl⟩ | ⟨hlength, hread, hstart⟩
    · exact takes_check (IsNext.cons hrparen) (takes_then rfl (takes_pure.bind hrest))
    · refine takes_check_not ?_ (takes_else Bool.false_ne_true (Takes.bind ?_ hrest))
      · rw [List.append_assoc]
        exact hstart _
      · exact hread depth 0 _ (by omega) (by omega) (IsNext.cons hrparen)

theorem takes_lastArgument (h : Reads (.expression e) ts) : Reads (.argumentList [e]) ts := by
  intro depth count rest hdepth hcount hnext
  rcases depth with _ | depth
  · omega
  · rw [arguments, if_neg (by simp at hcount; omega)]
    refine (h depth rest (by omega) (hnext.endsExpression (by decide))).bind_last ?_
    exact takes_accept_none (hnext.notNext (by decide)) takes_pure

theorem takes_moreArguments (h : Reads (.expression e) ts) (hcomma : comma.kind = .comma)
    (hes : Reads (.argumentList es) us) :
    Reads (.argumentList (e :: es)) (ts ++ comma :: us) := by
  intro depth count rest hdepth hcount hnext
  simp only [List.length_append, List.length_cons] at hdepth hcount
  rcases depth with _ | depth
  · omega
  · rw [arguments, if_neg (by omega)]
    have hends : EndsExpression (comma :: us ++ rest) :=
      (IsNext.cons hcomma).endsExpression (by decide)
    refine (h depth _ (by omega) hends).bind (takes_accept hcomma ?_)
    exact (hes depth (count + 1) rest (by omega) (by omega) hnext).bind_last takes_pure

theorem takes_operand {t : Token} (h : t.operand? t.position = some e) :
    Reads (.primary e) [t] := by
  intro depth rest hdepth
  rcases depth with _ | depth
  · omega
  · rw [primary_plain]
    exact takes_operandToken h takes_pure

theorem takes_grouping (hlparen : lparen.kind = .leftParen) (h : Reads (.expression e) ts)
    (hrparen : rparen.kind = .rightParen) :
    Reads (.primary (.grouping lparen.position e)) (lparen :: (ts ++ [rparen])) := by
  intro depth rest hdepth
  simp only [List.length_append, List.length_cons] at hdepth
  rcases depth with _ | depth
  · omega
  · rw [primary_plain]
    refine takes_operandToken_none (by simp [Token.operand?, hlparen]) (takes_accept hlparen ?_)
    have hends : EndsExpression ([rparen] ++ rest) :=
      (IsNext.cons hrparen).endsExpression (by decide)
    exact (h depth _ (by omega) hends).bind (takes_expect hrparen takes_pure)

/-- An operand is an operation of every level. -/
theorem takes_alone (h : Reads (.operation none e) ts) :
    Reads (.operation (some .logicOr) e) ts := by
  have hup (l : Level) (hl : Reads (.operation l.tighter e) ts) :
      Reads (.operation (some l) e) ts := by
    rw [← List.append_nil ts]
    exact takes_level hl takes_noOperator fun rest hends => hends.tighter
  exact hup .logicOr (hup .logicAnd (hup .equality (hup .comparison (hup .term (hup .factor h)))))

theorem takes_reference {name : Token} (hname : name.kind = .identifier) :
    Reads (.operation (some .logicOr) (.reference name.position name.lexeme)) [name] := by
  have hprimary : Reads (.primary (.reference name.position name.lexeme)) [name] :=
    takes_operand (by simp [Token.operand?, hname])
  have hcall : Reads (.operation none (.reference name.position name.lexeme)) ([name] ++ []) := by
    refine takes_call hprimary takes_noCall (fun t ht => ?_) (by simp)
    cases ht
    rw [hname]
    rfl
  exact takes_alone hcall

end

end Lox.Parse
