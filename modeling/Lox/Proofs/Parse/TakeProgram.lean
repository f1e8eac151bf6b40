import Lox.Proofs.Parse.ReadProgram
import Lox.Proofs.Parse.TakeExpression

/-! The parser reads the tokens of every program of the grammar in which each `else` belongs to the
nearest `if`. -/

namespace Lox.Parse

open Grammar

section

variable {nearest : Bool} {ts us vs ws rest : List Token} {e c : Expr Position}
  {s s' : Stmt Position} {xs : List Name}
  {word name sign lparen rparen lbrace rbrace semicolon comma : Token}

private theorem takes_lastParameter (hname : name.kind = .identifier) :
    Reads (.parameterList [name.lexeme]) [name] := by
  intro depth count rest hdepth hcount hnext
  rcases depth with _ | depth
  · omega
  · rw [parameters, if_neg (by simp at hcount; omega)]
    refine takes_expect hname ?_
    exact takes_accept_none (hnext.notNext (by decide)) takes_pure

private theorem takes_moreParameters (hname : name.kind = .identifier)
    (hcomma : comma.kind = .comma) (hxs : Reads (.parameterList xs) ts) :
    Reads (.parameterList (name.lexeme :: xs)) (name :: comma :: ts) := by
  intro depth count rest hdepth hcount hnext
  simp only [List.length_cons] at hdepth hcount
  rcases depth with _ | depth
  · omega
  · rw [parameters, if_neg (by omega)]
    refine takes_expect hname (takes_accept hcomma ?_)
    exact (hxs depth (count + 1) rest (by omega) (by omega) hnext).bind_last takes_pure

private theorem takes_varDecl {e : Option (Expr Position)} (hword : word.kind = .varWord)
    (hname : name.kind = .identifier) (he : Reads (.initializer e) ts)
    (hsemicolon : semicolon.kind = .semicolon) :
    Reads (.varDecl (.varDecl word.position name.lexeme e))
      (word :: name :: (ts ++ [semicolon])) := by
  refine ⟨word, _, rfl, hword, fun depth rest hdepth => ?_⟩
  simp only [List.length_append, List.length_cons] at hdepth
  rw [varDeclaration_plain]
  refine takes_expect hname ?_
  rcases e with _ | e
  · obtain rfl : ts = [] := he
    refine takes_accept_none ((IsNext.cons hsemicolon).notNext (by decide)) ?_
    exact takes_pure.bind (takes_expect hsemicolon takes_pure)
  · obtain ⟨sign, us, rfl, hsign, hread⟩ := he
    simp only [List.length_cons] at hdepth
    have hends : EndsExpression ([semicolon] ++ rest) :=
      (IsNext.cons hsemicolon).endsExpression (by decide)
    refine takes_accept hsign ?_
    exact (hread depth _ (by omega) hends).map.bind (takes_expect hsemicolon takes_pure)

private theorem takes_exprStmt {t : Token} (h : Reads (.expression e) (t :: ts))
    (hsemicolon : semicolon.kind = .semicolon) :
    Reads (.exprStmt (.expression t.position e)) (t :: (ts ++ [semicolon])) := by
  intro depth rest hdepth
  simp only [List.length_append, List.length_cons] at hdepth
  rw [expressionStatement_plain]
  have hends : EndsExpression ([semicolon] ++ rest) :=
    (IsNext.cons hsemicolon).endsExpression (by decide)
  refine takes_place rfl ?_
  exact (h depth _ (by simp; omega) hends).bind (takes_expect hsemicolon takes_pure)

private theorem takes_expressionStatement (h : Reads (.exprStmt s) ts)
    (hstart : ∀ kind ∉ expressionStarts, NotNext kind (ts ++ rest)) :
    ∀ depth, 16 * ts.length + 11 ≤ depth → Takes (statement depth) s ts rest := by
  intro depth hdepth
  rcases depth with _ | depth
  · omega
  · rw [statement_plain]
    refine takes_accept_none (hstart _ (by decide)) ?_
    refine takes_accept_none (hstart _ (by decide)) ?_
    refine takes_accept_none (hstart _ (by decide)) ?_
    refine takes_accept_none (hstart _ (by decide)) ?_
    refine takes_accept_none (hstart _ (by decide)) ?_
    refine takes_accept_none (hstart _ (by decide)) ?_
    exact h depth rest (by omega)

private theorem takes_print (hword : word.kind = .printWord) (h : Reads (.expression e) ts)
    (hsemicolon : semicolon.kind = .semicolon) :
    Reads (.statement false (.print word.position e)) (word :: (ts ++ [semicolon])) := by
  intro depth rest hdepth _
  simp only [List.length_append, List.length_cons] at hdepth
  rcases depth with _ | depth
  · omega
  · have hprint : Takes (printStatement depth word.position) (.print word.position e)
        (ts ++ [semicolon]) rest := by
      rw [printStatement_plain]
      have hends : EndsExpression ([semicolon] ++ rest) :=
        (IsNext.cons hsemicolon).endsExpression (by decide)
      exact (h depth _ (by omega) hends).bind (takes_expect hsemicolon takes_pure)
    rw [statement_plain]
    exact takes_accept hword hprint

private theorem takes_returnStmt {e : Option (Expr Position)} (hword : word.kind = .returnWord)
    (h : Reads (.optional e) ts) (hsemicolon : semicolon.kind = .semicolon) :
    Reads (.statement false (.returnStmt word.position e)) (word :: (ts ++ [semicolon])) := by
  intro depth rest hdepth _
  simp only [List.length_append, List.length_cons] at hdepth
  rcases depth with _ | depth
  · omega
  · have hreturn : Takes (returnStatement depth word.position) (.returnStmt word.position e)
        (ts ++ [semicolon]) rest := by
      rw [returnStatement_plain]
      rcases e with _ | e
      · obtain rfl : ts = [] := h
        refine takes_check (IsNext.cons hsemicolon) (takes_then rfl ?_)
        exact takes_pure.bind (takes_expect hsemicolon takes_pure)
      · have hends : EndsExpression ([semicolon] ++ rest) :=
          (IsNext.cons hsemicolon).endsExpression (by decide)
        refine takes_check_not ?_ (takes_else Bool.false_ne_true ?_)
        · rw [List.append_assoc]
          exact (h.2 _).1
        · exact (h.1 depth _ (by omega) hends).map.bind (takes_expect hsemicolon takes_pure)
    rw [statement_plain]
    refine takes_accept_none ((IsNext.cons hword).notNext (by decide)) ?_
    refine takes_accept_none ((IsNext.cons hword).notNext (by decide)) ?_
    refine takes_accept_none ((IsNext.cons hword).notNext (by decide)) ?_
    refine takes_accept_none ((IsNext.cons hword).notNext (by decide)) ?_
    refine takes_accept_none ((IsNext.cons hword).notNext (by decide)) ?_
    exact takes_accept hword hreturn

private theorem takes_block {p : Program Position} (hlbrace : lbrace.kind = .leftBrace)
    (h : Reads (.declarations p) ts) (hrbrace : rbrace.kind = .rightBrace) :
    Reads (.statement false (.block lbrace.position p)) (lbrace :: (ts ++ [rbrace])) := by
  intro depth rest hdepth _
  simp only [List.length_append, List.length_cons] at hdepth
  rcases depth with _ | depth
  · omega
  · rw [statement_plain]
    refine takes_accept_none ((IsNext.cons hlbrace).notNext (by decide)) ?_
    refine takes_accept hlbrace ?_
    exact (h.1 depth rbrace rest (by omega) hrbrace).bind_last takes_pure

private theorem takes_ifOnly {isOpen : Bool} (hword : word.kind = .ifWord)
    (hlparen : lparen.kind = .leftParen) (hc : Reads (.expression c) ts)
    (hrparen : rparen.kind = .rightParen) (hs : Reads (.statement isOpen s) us) :
    Reads (.statement true (.ifElse word.position c s none))
      (word :: lparen :: (ts ++ rparen :: us)) := by
  intro depth rest hdepth hopen
  have hnext : NotNext .elseWord rest := hopen rfl
  simp only [List.length_append, List.length_cons] at hdepth
  rcases depth with _ | _ | depth
  · omega
  · omega
  · have hif : Takes (ifStatement (depth + 1) word.position) (.ifElse word.position c s none)
        (lparen :: (ts ++ rparen :: us)) rest := by
      rw [ifStatement_plain]
      have hends : EndsExpression (rparen :: us ++ rest) :=
        (IsNext.cons hrparen).endsExpression (by decide)
      refine takes_expect hlparen ?_
      refine (hc depth _ (by omega) hends).bind (takes_expect hrparen ?_)
      refine (hs depth rest (by omega) fun _ => hnext).bind_last ?_
      exact takes_accept_none hnext takes_pure
    rw [statement_plain]
    refine takes_accept_none ((IsNext.cons hword).notNext (by decide)) ?_
    refine takes_accept_none ((IsNext.cons hword).notNext (by decide)) ?_
    exact takes_accept hword hif

private theorem takes_ifElse {other : Token} {isOpen : Bool} (hword : word.kind = .ifWord)
    (hlparen : lparen.kind = .leftParen) (hc : Reads (.expression c) ts)
    (hrparen : rparen.kind = .rightParen) (hs : Reads (.statement false s) us)
    (hother : other.kind = .elseWord) (hs' : Reads (.statement isOpen s') vs) :
    Reads (.statement isOpen (.ifElse word.position c s (some s')))
      (word :: lparen :: (ts ++ rparen :: (us ++ other :: vs))) := by
  intro depth rest hdepth hopen
  simp only [List.length_append, List.length_cons] at hdepth
  rcases depth with _ | _ | depth
  · omega
  · omega
  · have hif : Takes (ifStatement (depth + 1) word.position)
        (.ifElse word.position c s (some s'))
        (lparen :: (ts ++ rparen :: (us ++ other :: vs))) rest := by
      rw [ifStatement_plain]
      have hends : EndsExpression (rparen :: (us ++ other :: vs) ++ rest) :=
        (IsNext.cons hrparen).endsExpression (by decide)
      refine takes_expect hlparen ?_
      refine (hc depth _ (by omega) hends).bind (takes_expect hrparen ?_)
      refine (hs depth (other :: vs ++ rest) (by omega)
        fun h => absurd h Bool.false_ne_true).bind ?_
      exact takes_accept hother ((hs' depth rest (by omega) hopen).bind_last takes_pure)
    rw [statement_plain]
    refine takes_accept_none ((IsNext.cons hword).notNext (by decide)) ?_
    refine takes_accept_none ((IsNext.cons hword).notNext (by decide)) ?_
    exact takes_accept hword hif

private theorem takes_whileLoop {isOpen : Bool} (hword : word.kind = .whileWord)
    (hlparen : lparen.kind = .leftParen) (hc : Reads (.expression c) ts)
    (hrparen : rparen.kind = .rightParen) (hs : Reads (.statement isOpen s) us) :
    Reads (.statement isOpen (.whileLoop word.position c s))
      (word :: lparen :: (ts ++ rparen :: us)) := by
  intro depth rest hdepth hopen
  simp only [List.length_append, List.length_cons] at hdepth
  rcases depth with _ | _ | depth
  · omega
  · omega
  · have hwhile : Takes (whileStatement (depth + 1) word.position) (.whileLoop word.position c s)
        (lparen :: (ts ++ rparen :: us)) rest := by
      rw [whileStatement_plain]
      have hends : EndsExpression (rparen :: us ++ rest) :=
        (IsNext.cons hrparen).endsExpression (by decide)
      refine takes_expect hlparen ?_
      refine (hc depth _ (by omega) hends).bind (takes_expect hrparen ?_)
      exact (hs depth rest (by omega) hopen).bind_last takes_pure
    rw [statement_plain]
    refine takes_accept_none ((IsNext.cons hword).notNext (by decide)) ?_
    refine takes_accept_none ((IsNext.cons hword).notNext (by decide)) ?_
    refine takes_accept_none ((IsNext.cons hword).notNext (by decide)) ?_
    exact takes_accept hword hwhile

private theorem takes_noClause (hsemicolon : semicolon.kind = .semicolon) :
    Reads (.forClause none) [semicolon] := by
  intro depth rest _
  rw [forInitializer]
  exact takes_accept hsemicolon takes_pure

private theorem takes_varClause (h : Reads (.varDecl s) ts) : Reads (.forClause (some s)) ts := by
  obtain ⟨word, us, rfl, hword, hread⟩ := h
  intro depth rest hdepth
  rw [forInitializer]
  refine takes_accept_none ((IsNext.cons hword).notNext (by decide)) (takes_accept hword ?_)
  exact (hread depth rest (by simp at hdepth; omega)).map

private theorem takes_exprClause (h : Reads (.exprStmt s) ts)
    (hstart : ∀ rest, ∀ kind ∉ expressionStarts, NotNext kind (ts ++ rest)) :
    Reads (.forClause (some s)) ts := by
  intro depth rest hdepth
  rw [forInitializer]
  refine takes_accept_none (hstart _ _ (by decide)) ?_
  refine takes_accept_none (hstart _ _ (by decide)) ?_
  exact (h depth rest hdepth).map

private theorem takes_forCondition {c : Option (Expr Position)} (h : Reads (.optional c) ts)
    (hsemicolon : semicolon.kind = .semicolon) (depth : Nat)
    (hdepth : 16 * ts.length + 10 ≤ depth) :
    Takes (forCondition depth) (c.getD (.literal semicolon.position (.bool true))) ts
      (semicolon :: rest) := by
  rw [forCondition_plain]
  rcases c with _ | c
  · obtain rfl : ts = [] := h
    refine takes_check (IsNext.cons hsemicolon) (takes_then rfl ?_)
    exact takes_place rfl takes_pure
  · refine takes_check_not (h.2 _).1 (takes_else Bool.false_ne_true ?_)
    exact h.1 depth _ hdepth ((IsNext.cons hsemicolon).endsExpression (by decide))

private theorem takes_forIncrement {e : Option (Expr Position)} (h : Reads (.optional e) ts)
    (hrparen : rparen.kind = .rightParen) (depth : Nat) (hdepth : 16 * ts.length + 10 ≤ depth) :
    Takes (forIncrement depth) e ts (rparen :: rest) := by
  rw [forIncrement]
  rcases e with _ | e
  · obtain rfl : ts = [] := h
    exact takes_check (IsNext.cons hrparen) (takes_then rfl takes_pure)
  · refine takes_check_not (h.2 _).2 (takes_else Bool.false_ne_true ?_)
    exact (h.1 depth _ hdepth ((IsNext.cons hrparen).endsExpression (by decide))).map

private theorem takes_forLoop {first : Option (Stmt Position)}
    {c increment : Option (Expr Position)}
    {isOpen : Bool} (hword : word.kind = .forWord) (hlparen : lparen.kind = .leftParen)
    (hfirst : Reads (.forClause first) ts) (hc : Reads (.optional c) us)
    (hsemicolon : semicolon.kind = .semicolon) (hincrement : Reads (.optional increment) vs)
    (hrparen : rparen.kind = .rightParen) (hs : Reads (.statement isOpen s) ws) :
    Reads (.statement isOpen (.forLoop word.position first
        (c.getD (.literal semicolon.position (.bool true))) increment s))
      (word :: lparen :: (ts ++ (us ++ semicolon :: (vs ++ rparen :: ws)))) := by
  intro depth rest hdepth hopen
  simp only [List.length_append, List.length_cons] at hdepth
  rcases depth with _ | _ | depth
  · omega
  · omega
  · have hfor : Takes (forStatement (depth + 1) word.position)
        (.forLoop word.position first (c.getD (.literal semicolon.position (.bool true)))
          increment s)
        (lparen :: (ts ++ (us ++ semicolon :: (vs ++ rparen :: ws)))) rest := by
      rw [forStatement_plain]
      refine takes_expect hlparen ((hfirst depth _ (by omega)).bind ?_)
      refine (takes_forCondition hc hsemicolon depth (by omega)).bind ?_
      refine takes_expect hsemicolon ?_
      refine (takes_forIncrement hincrement hrparen depth (by omega)).bind ?_
      refine takes_expect hrparen ?_
      exact (hs depth rest (by omega) hopen).bind_last takes_pure
    rw [statement_plain]
    refine takes_accept_none ((IsNext.cons hword).notNext (by decide)) ?_
    refine takes_accept_none ((IsNext.cons hword).notNext (by decide)) ?_
    refine takes_accept_none ((IsNext.cons hword).notNext (by decide)) ?_
    refine takes_accept_none ((IsNext.cons hword).notNext (by decide)) ?_
    exact takes_accept hword hfor

private theorem takes_function {body : Program Position} (hword : word.kind = .funWord)
    (hname : name.kind = .identifier) (hlparen : lparen.kind = .leftParen)
    (hxs : Reads (.parameters xs) ts) (hrparen : rparen.kind = .rightParen)
    (hlbrace : lbrace.kind = .leftBrace) (hbody : Reads (.declarations body) us)
    (hrbrace : rbrace.kind = .rightBrace) :
    Reads (.declaration (.funDecl word.position name.lexeme xs body))
      (word :: name :: lparen :: (ts ++ rparen :: lbrace :: (us ++ [rbrace]))) := by
  intro depth rest hdepth _
  simp only [List.length_append, List.length_cons] at hdepth
  rcases depth with _ | _ | depth
  · omega
  · omega
  · have hrest : Takes (do
        let _ ← expect .rightParen .parenAfterParameters
        let _ ← expect .leftBrace .braceBeforeBody
        let body ← blockBody depth
        return Stmt.funDecl word.position name.lexeme xs body)
        (Stmt.funDecl word.position name.lexeme xs body)
        (rparen :: lbrace :: (us ++ [rbrace])) rest := by
      refine takes_expect hrparen (takes_expect hlbrace ?_)
      exact (hbody.1 depth rbrace rest (by omega) hrbrace).bind_last takes_pure
    have hfunction : Takes (functionDeclaration (depth + 1) word.position)
        (.funDecl word.position name.lexeme xs body)
        (name :: lparen :: (ts ++ rparen :: lbrace :: (us ++ [rbrace]))) rest := by
      rw [functionDeclaration_plain]
      refine takes_expect hname (takes_expect hlparen ?_)
      rcases hxs with ⟨rfl, rfl⟩ | ⟨hlength, hread, hstart⟩
      · exact takes_check (IsNext.cons hrparen) (takes_then rfl (takes_pure.bind hrest))
      · refine takes_check_not ?_ (takes_else Bool.false_ne_true (Takes.bind ?_ hrest))
        · rw [List.append_assoc]
          exact hstart _
        · exact hread depth 0 _ (by omega) (by omega) (IsNext.cons hrparen)
    rw [declaration]
    exact takes_accept hword hfunction

private theorem takes_variableDeclaration (h : Reads (.varDecl s) ts) : Reads
    (.declaration s) ts := by
  obtain ⟨word, us, rfl, hword, hread⟩ := h
  intro depth rest hdepth _
  rcases depth with _ | depth
  · omega
  · rw [declaration]
    refine takes_accept_none ((IsNext.cons hword).notNext (by decide)) (takes_accept hword ?_)
    exact hread depth rest (by simp at hdepth; omega)

private theorem takes_statement {isOpen : Bool} (h : Reads (.statement isOpen s) ts)
    (hstart : ∀ rest, ∀ kind ∉ statementStarts, NotNext kind (ts ++ rest)) :
    Reads (.declaration s) ts := by
  intro depth rest hdepth hnext
  rcases depth with _ | depth
  · omega
  · rw [declaration]
    refine takes_accept_none (hstart _ _ (by decide)) ?_
    refine takes_accept_none (hstart _ _ (by decide)) ?_
    exact h depth rest (by omega) fun _ => hnext

private theorem takes_noDeclarations : Reads (.declarations []) [] := by
  constructor
  · intro depth rbrace rest hdepth hrbrace
    rcases depth with _ | depth
    · omega
    · rw [blockBody]
      refine takes_check (IsNext.cons hrbrace) (takes_atEnd (takes_then rfl ?_))
      exact takes_expect hrbrace takes_pure
  · intro depth hdepth
    rcases depth with _ | depth
    · omega
    · rw [program]
      exact takes_atEnd (takes_then rfl takes_pure)

private theorem takes_moreDeclarations {p : Program Position} (hs : Reads (.declaration s) ts)
    (hp : Reads (.declarations p) us) (hne : ts ≠ [])
    (hstart : ∀ rest, NotNext .rightBrace (ts ++ rest))
    (hnext : ∀ rest, NotNext .elseWord rest → NotNext .elseWord (us ++ rest)) :
    Reads (.declarations (s :: p)) (ts ++ us) := by
  have hpos : 0 < ts.length := List.length_pos_iff.mpr hne
  constructor
  · intro depth rbrace rest hdepth hrbrace
    simp only [List.length_append] at hdepth
    rcases depth with _ | depth
    · omega
    · rw [blockBody, List.append_assoc]
      have hclose : NotNext .elseWord ([rbrace] ++ rest) :=
        (IsNext.cons hrbrace).notNext (by decide)
      have hfirst : Takes (declaration depth) s ts ((us ++ [rbrace]) ++ rest) := by
        rw [List.append_assoc]
        exact hs depth _ (by omega) (hnext _ hclose)
      refine takes_check_not (by rw [List.append_assoc]; exact hstart _) (takes_atEnd ?_)
      refine takes_else (by simp [hne]) ((takes_recovering hfirst).bind ?_)
      exact (hp.1 depth rbrace rest (by omega) hrbrace).bind_last takes_pure
  · intro depth hdepth
    simp only [List.length_append] at hdepth
    rcases depth with _ | depth
    · omega
    · rw [program]
      have hfirst : Takes (declaration depth) s ts (us ++ []) :=
        hs depth _ (by omega) (hnext [] (by rintro t ⟨⟩))
      refine takes_atEnd (takes_else (by simp [hne]) ((takes_recovering hfirst).bind ?_))
      exact (hp.2 depth (by omega)).bind_last takes_pure

end

/-- No declaration starts with `else`. -/
theorem notNext_declarations {nearest : Bool} {p : Program Position} {us rest : List Token}
    (h : Derives nearest (.declarations p) us) (hnext : NotNext .elseWord rest) :
    NotNext .elseWord (us ++ rest) := by
  cases h with
  | noDeclarations => exact hnext
  | moreDeclarations hs hp =>
    rw [List.append_assoc]
    exact notNext_of_derives hs rfl (by decide) _

theorem reads_of_derives {ph : Phrase} {ts : List Token} (h : Derives true ph ts) :
    Reads ph ts := by
  induction h with
  | noDeclarations => exact takes_noDeclarations
  | moreDeclarations hs hp ihs ihp =>
    refine takes_moreDeclarations ihs ihp ?_ (notNext_of_derives hs rfl (by decide)) ?_
    · exact List.ne_nil_of_length_pos (hs.length_pos rfl)
    · exact fun rest => notNext_declarations hp
  | function hword hname hlparen _ hrparen hlbrace _ hrbrace ihxs ihbody =>
    exact takes_function hword hname hlparen ihxs hrparen hlbrace ihbody hrbrace
  | variableDeclaration _ ih => exact takes_variableDeclaration ih
  | statement hs ih =>
    exact takes_statement ih fun rest kind hkind => notNext_of_derives hs rfl hkind rest
  | noParameters => exact .inl ⟨rfl, rfl⟩
  | someParameters hlength hxs ih =>
    exact .inr ⟨hlength, ih, notNext_of_derives hxs rfl (by decide)⟩
  | lastParameter hname => exact takes_lastParameter hname
  | moreParameters hname hcomma _ ih => exact takes_moreParameters hname hcomma ih
  | varDecl hword hname _ hsemicolon ih => exact takes_varDecl hword hname ih hsemicolon
  | noInitializer => rfl
  | someInitializer hsign _ ih => exact ⟨_, _, rfl, hsign, ih⟩
  | exprStmt _ hsemicolon ih => exact takes_exprStmt ih hsemicolon
  | expressionStatement hs ih =>
    intro depth rest hdepth _
    exact takes_expressionStatement ih
      (fun kind hkind => notNext_of_derives hs rfl hkind rest) depth hdepth
  | print hword _ hsemicolon ih => exact takes_print hword ih hsemicolon
  | returnStmt hword _ hsemicolon ih => exact takes_returnStmt hword ih hsemicolon
  | block hlbrace _ hrbrace ih => exact takes_block hlbrace ih hrbrace
  | ifOnly hword hlparen _ hrparen _ ihc ihs => exact takes_ifOnly hword hlparen ihc hrparen ihs
  | ifElse hword hlparen _ hrparen _ hclosed hother _ ihc ihs ihs' =>
    rw [hclosed rfl] at ihs
    exact takes_ifElse hword hlparen ihc hrparen ihs hother ihs'
  | whileLoop hword hlparen _ hrparen _ ihc ihs =>
    exact takes_whileLoop hword hlparen ihc hrparen ihs
  | forLoop hword hlparen _ _ hsemicolon _ hrparen _ ihfirst ihc ihincrement ihs =>
    exact takes_forLoop hword hlparen ihfirst ihc hsemicolon ihincrement hrparen ihs
  | noClause hsemicolon => exact takes_noClause hsemicolon
  | varClause _ ih => exact takes_varClause ih
  | exprClause hs ih =>
    exact takes_exprClause ih fun rest kind hkind => notNext_of_derives hs rfl hkind rest
  | absent => rfl
  | present he ih =>
    refine ⟨ih, fun rest => ⟨?_, ?_⟩⟩
    · exact notNext_of_derives he rfl (by decide) rest
    · exact notNext_of_derives he rfl (by decide) rest
  | assignment hname hsign _ ih => exact takes_assignment hsign (takes_reference hname) ih
  | operation _ ih => exact takes_expression ih
  | level _ hops ihleft ihops =>
    exact takes_level ihleft ihops fun rest hends => ends_operators hops hends
  | noOperator => exact takes_noOperator
  | moreOperators hsign _ hops ihright ihops =>
    exact takes_moreOperators hsign ihright ihops fun rest hends => ends_operators hops hends
  | unary hsign _ ih => exact takes_unary hsign ih
  | call hcallee _ ihcallee ihcalls =>
    refine takes_call ihcallee ihcalls (fun t ht => ?_) ?_
    · obtain ⟨u, hu, hmem⟩ := hcallee.start rfl
      rw [hu] at ht
      cases ht
      revert hmem
      generalize t.kind = kind
      cases kind <;> decide
    · exact List.ne_nil_of_length_pos (hcallee.length_pos rfl)
  | noCall => exact takes_noCall
  | moreCalls hlparen _ hrparen _ ihes ihcalls =>
    exact takes_moreCalls hlparen ihes hrparen ihcalls
  | noArguments => exact .inl ⟨rfl, rfl⟩
  | someArguments hlength hes ih =>
    exact .inr ⟨hlength, ih, notNext_of_derives hes rfl (by decide)⟩
  | lastArgument _ ih => exact takes_lastArgument ih
  | moreArguments _ hcomma _ ih ihes => exact takes_moreArguments ih hcomma ihes
  | number h | string h | trueWord h | falseWord h | nilWord h | identifier h =>
    exact takes_operand (by simp [Token.operand?, h])
  | grouping hlparen _ hrparen ih => exact takes_grouping hlparen ih hrparen

end Lox.Parse
