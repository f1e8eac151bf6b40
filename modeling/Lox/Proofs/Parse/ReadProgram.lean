import Lox.Proofs.Parse.ReadExpression

/-! What the parser reads of statements and declarations without an error, up to whole programs. -/

namespace Lox.Parse

open Grammar

/-- A statement has been read; if it is open, no `else` comes after it. -/
def StatementRead (P : List Token → Prop) (s : Stmt Position) (rest : List Token) : Prop :=
  ∃ ts isOpen, P (ts ++ rest) ∧ Derives true (.statement isOpen s) ts ∧
    (isOpen → NotNext .elseWord rest)

/-- What the steps of a depth read of programs. -/
structure ReadsPrograms (depth : Nat) : Prop where
  declaration : ∀ P, Suffices depth P 12 → ReadsPhrase P (declaration depth) .declaration
  functionDeclaration : ∀ P (word : Token), word.kind = .funWord → Suffices depth P 1 →
    Triple (fun rest => P (word :: rest)) (functionDeclaration depth word.position)
      (PhraseRead P .declaration)
  blockBody : ∀ P, Suffices depth P 13 → Triple P (blockBody depth) fun p rest =>
    ∃ rbrace : Token, rbrace.kind = .rightBrace ∧
      PhraseRead (fun rest => P rest) .declarations p (rbrace :: rest)
  statement : ∀ P, Suffices depth P 11 → Triple P (statement depth) (StatementRead P)
  ifStatement : ∀ P (word : Token), word.kind = .ifWord → Suffices depth P 1 →
    Triple (fun rest => P (word :: rest)) (ifStatement depth word.position) (StatementRead P)
  whileStatement : ∀ P (word : Token), word.kind = .whileWord → Suffices depth P 1 →
    Triple (fun rest => P (word :: rest)) (whileStatement depth word.position) (StatementRead P)
  forStatement : ∀ P (word : Token), word.kind = .forWord → Suffices depth P 1 →
    Triple (fun rest => P (word :: rest)) (forStatement depth word.position) (StatementRead P)

section

variable {depth : Nat} {P : List Token → Prop}

theorem expression_read (h : Suffices depth P 10) : ReadsPhrase P (expression depth) .expression :=
  (readsExpressions depth).expression P h

theorem some_expression_read (h : Suffices depth P 10) :
    Triple P (some <$> expression depth) fun e rest =>
      ∃ e', e = some e' ∧ PhraseRead P .expression e' rest := by
  rw [map_eq_pure_bind]
  exact (expression_read h).bind fun e => Triple.pure fun rest hread => ⟨e, rfl, hread⟩

theorem optional_expression_read (h : Suffices depth P 10) :
    ReadsPhrase P (some <$> expression depth) .optional := by
  refine (some_expression_read h).weaken (fun _ => id) fun e rest hread => ?_
  obtain ⟨e, rfl, ts, hP, he⟩ := hread
  exact ⟨ts, hP, .present he⟩

private theorem parameters_read (h : Suffices depth P 1) (count : Nat) :
    Triple P (parameters depth count) fun xs rest => ∃ ts, P (ts ++ rest) ∧
      count + xs.length ≤ argumentLimit ∧ Derives true (.parameterList xs) ts := by
  induction depth generalizing P count with
  | zero => exact triple_stuck h.not
  | succ depth ih =>
    rw [parameters]
    refine triple_reportWhen _ ?_
    refine triple_expect fun name hname => triple_accept ?_ fun comma hcomma => ?_
    · refine Triple.pure fun rest hread => ?_
      obtain ⟨⟨hcount, hP⟩, _⟩ := hread
      exact ⟨[name], hP, by grind, .lastParameter hname⟩
    · refine (ih ?_ (count + 1)).bind fun xs => Triple.pure ?_
      · exact h.step.token (by omega) fun rest ⟨_, hP⟩ => ⟨_, hP, by grind⟩
      · rintro rest ⟨ts, ⟨_, hP⟩, hn, hxs⟩
        exact ⟨name :: comma :: ts, hP, by grind, .moreParameters hname hcomma hxs⟩

theorem varDeclaration_read {word : Token} (hword : word.kind = .varWord)
    (h : Suffices depth P 0) :
    Triple (fun rest => P (word :: rest)) (varDeclaration depth word.position)
      (PhraseRead P .varDecl) := by
  rw [varDeclaration_plain]
  refine triple_expect fun name hname => ?_
  have hrest (e : Option (Expr Position)) :
      Triple (PhraseRead (fun rest => P (word :: name :: rest)) .initializer e)
        (do
          let _ ← expect .semicolon .semicolonAfterDeclaration
          return .varDecl word.position name.lexeme e)
        (PhraseRead P .varDecl) := by
    refine triple_expect fun semicolon hsemicolon => Triple.pure fun rest hread => ?_
    obtain ⟨ts, hP, he⟩ := hread
    exact ⟨word :: name :: (ts ++ [semicolon]), by simpa using hP,
      .varDecl hword hname he hsemicolon⟩
  refine triple_accept ?_ fun sign hsign => ?_
  · exact (Triple.pure fun rest ⟨hP, _⟩ => ⟨[], hP, .noInitializer⟩).bind hrest
  · refine (some_expression_read ?_).bind fun e => (hrest e).weaken ?_ fun _ _ => id
    · exact h.token (by omega) fun rest hP => ⟨_, hP, by grind⟩
    · intro rest hread
      obtain ⟨e, rfl, ts, hP, he⟩ := hread
      exact ⟨sign :: ts, hP, .someInitializer hsign he⟩

theorem expressionStatement_read (h : Suffices depth P 10) :
    ReadsPhrase P (expressionStatement depth) .exprStmt := by
  rw [expressionStatement_plain]
  refine triple_place.bind fun note => ?_
  refine (expression_read ?_).bind fun e => triple_expect fun semicolon hsemicolon =>
    Triple.pure fun rest hread => ?_
  · exact h.rest fun rest ⟨hP, _⟩ => ⟨_, hP, Nat.le_refl _⟩
  · obtain ⟨ts, ⟨hP, hnote⟩, he⟩ := hread
    obtain ⟨t, ht, -⟩ := he.start rfl
    obtain ⟨us, rfl⟩ : ∃ us, ts = t :: us := List.head?_eq_some_iff.mp ht
    rw [hnote t _ rfl]
    exact ⟨t :: (us ++ [semicolon]), by simpa using hP, .exprStmt he hsemicolon⟩

private theorem printStatement_read {word : Token} (hword : word.kind = .printWord)
    (h : Suffices depth P 0) :
    Triple (fun rest => P (word :: rest)) (printStatement depth word.position)
      (StatementRead P) := by
  rw [printStatement_plain]
  refine (expression_read ?_).bind fun e => triple_expect fun semicolon hsemicolon =>
    Triple.pure fun rest hread => ?_
  · exact h.token (by omega) fun rest hP => ⟨_, hP, by grind⟩
  · obtain ⟨ts, hP, he⟩ := hread
    exact ⟨word :: (ts ++ [semicolon]), false, by simpa using hP, .print hword he hsemicolon,
      by simp⟩

private theorem returnStatement_read {word : Token} (hword : word.kind = .returnWord)
    (h : Suffices depth P 0) :
    Triple (fun rest => P (word :: rest)) (returnStatement depth word.position)
      (StatementRead P) := by
  rw [returnStatement_plain]
  have hrest (e : Option (Expr Position)) :
      Triple (PhraseRead (fun rest => P (word :: rest)) .optional e)
        (do
          let _ ← expect .semicolon .semicolonAfterReturn
          return .returnStmt word.position e)
        (StatementRead P) := by
    refine triple_expect fun semicolon hsemicolon => Triple.pure fun rest hread => ?_
    obtain ⟨ts, hP, he⟩ := hread
    exact ⟨word :: (ts ++ [semicolon]), false, by simpa using hP,
      .returnStmt hword he hsemicolon, by simp⟩
  refine (triple_check _).bind fun ends => Triple.ite (fun _ => ?_) fun _ => ?_
  · exact (Triple.pure fun rest hP => ⟨[], hP, .absent⟩).bind hrest
  · refine (optional_expression_read ?_).bind hrest
    exact h.token (by omega) fun rest hP => ⟨_, hP, by grind⟩

private theorem forInitializer_read (h : Suffices depth P 10) :
    ReadsPhrase P (forInitializer depth) .forClause := by
  rw [forInitializer]
  refine triple_accept (triple_accept ?_ fun word hword => ?_) fun semicolon hsemicolon => ?_
  · rw [map_eq_pure_bind]
    refine (expressionStatement_read ?_).bind fun s => Triple.pure fun rest hread => ?_
    · exact h.rest fun rest ⟨⟨hP, _⟩, _⟩ => ⟨_, hP, Nat.le_refl _⟩
    · obtain ⟨ts, ⟨⟨hP, _⟩, _⟩, hs⟩ := hread
      exact ⟨ts, hP, .exprClause hs⟩
  · rw [map_eq_pure_bind]
    have hvar := varDeclaration_read (P := P) hword (h.mono (by omega))
    refine (hvar.weaken (fun _ h => h.1) fun _ _ => id).bind fun s =>
      Triple.pure fun rest hread => ?_
    obtain ⟨ts, hP, hs⟩ := hread
    exact ⟨ts, hP, .varClause hs⟩
  · exact Triple.pure fun rest hP => ⟨[semicolon], hP, .noClause hsemicolon⟩

/-- The condition of a loop; an absent one is true, at the place of what comes after it. -/
theorem forCondition_read (h : Suffices depth P 10) :
    Triple P (forCondition depth) fun e rest => ∃ c, PhraseRead P .optional c rest ∧
      ∀ t us, rest = t :: us → e = c.getD (.literal t.position (.bool true)) := by
  rw [forCondition_plain]
  refine (triple_check _).bind fun ends => Triple.ite (fun _ => ?_) fun _ => ?_
  · refine triple_place.bind fun note => Triple.pure fun rest hread => ?_
    exact ⟨none, ⟨[], hread.1, .absent⟩, fun t us hrest => by rw [hread.2 t us hrest]; rfl⟩
  · refine (expression_read h).weaken (fun _ => id) fun e rest hread => ?_
    obtain ⟨ts, hP, he⟩ := hread
    exact ⟨some e, ⟨ts, hP, .present he⟩, fun _ _ _ => rfl⟩

private theorem forIncrement_read (h : Suffices depth P 10) :
    ReadsPhrase P (forIncrement depth) .optional := by
  rw [forIncrement]
  refine (triple_check _).bind fun ends => Triple.ite (fun _ => ?_) fun _ => ?_
  · exact Triple.pure fun rest hP => ⟨[], hP, .absent⟩
  · exact optional_expression_read h

end

section

variable {depth : Nat} {P : List Token → Prop}

private theorem declaration_reads (ih : ReadsPrograms depth) (h : Suffices (depth + 1) P 12) :
    ReadsPhrase P (declaration (depth + 1)) .declaration := by
  rw [declaration]
  refine triple_accept (triple_accept ?_ fun word hword => ?_) fun word hword => ?_
  · refine (ih.statement _ ?_).weaken (fun _ => id) fun s rest hread => ?_
    · exact h.step.rest fun rest ⟨⟨hP, _⟩, _⟩ => ⟨_, hP, Nat.le_refl _⟩
    · obtain ⟨ts, isOpen, ⟨⟨hP, _⟩, _⟩, hs, _⟩ := hread
      exact ⟨ts, hP, .statement hs⟩
  · have hvar := varDeclaration_read (P := P) hword (h.step.mono (by omega))
    refine hvar.weaken (fun _ h => h.1) fun s rest hread => ?_
    obtain ⟨ts, hP, hs⟩ := hread
    exact ⟨ts, hP, .variableDeclaration hs⟩
  · exact ih.functionDeclaration P word hword (h.step.mono (by omega))

private theorem functionDeclaration_reads (ih : ReadsPrograms depth) {word : Token}
    (hword : word.kind = .funWord) (h : Suffices (depth + 1) P 1) :
    Triple (fun rest => P (word :: rest)) (functionDeclaration (depth + 1) word.position)
      (PhraseRead P .declaration) := by
  rw [functionDeclaration_plain]
  refine triple_expect fun name hname => triple_expect fun lparen hlparen => ?_
  have hrest (xs : List Name) :
      Triple (PhraseRead (fun rest => P (word :: name :: lparen :: rest)) .parameters xs)
        (do
          let _ ← expect .rightParen .parenAfterParameters
          let _ ← expect .leftBrace .braceBeforeBody
          let body ← blockBody depth
          return .funDecl word.position name.lexeme xs body)
        (PhraseRead P .declaration) := by
    refine triple_expect fun rparen hrparen => triple_expect fun lbrace hlbrace => ?_
    refine (ih.blockBody _ ?_).bind fun body => Triple.pure fun rest hread => ?_
    · exact h.step.token (by omega) fun rest ⟨ts, hP, _⟩ => ⟨_, hP, by grind⟩
    · obtain ⟨rbrace, hrbrace, us, ⟨ts, hP, hxs⟩, hbody⟩ := hread
      exact ⟨word :: name :: lparen :: (ts ++ rparen :: lbrace :: (us ++ [rbrace])),
        by simpa using hP, .function hword hname hlparen hxs hrparen hlbrace hbody hrbrace⟩
  refine (triple_check _).bind fun closes => Triple.ite (fun _ => ?_) fun _ => ?_
  · exact (Triple.pure fun rest hP => ⟨[], hP, .noParameters⟩).bind hrest
  · refine (parameters_read ?_ 0).bind fun xs => (hrest xs).weaken ?_ fun _ _ => id
    · exact h.step.token (by omega) fun rest hP => ⟨_, hP, by grind⟩
    · intro rest hread
      obtain ⟨ts, hP, hn, hxs⟩ := hread
      exact ⟨ts, hP, .someParameters (by omega) hxs⟩

private theorem blockBody_reads (ih : ReadsPrograms depth) (h : Suffices (depth + 1) P 13) :
    Triple P (blockBody (depth + 1)) fun p rest => ∃ rbrace : Token, rbrace.kind = .rightBrace ∧
      PhraseRead P .declarations p (rbrace :: rest) := by
  rw [blockBody]
  refine (triple_check _).bind fun closes => triple_atEnd.bind fun ends =>
    Triple.ite (fun _ => ?_) fun _ => ?_
  · refine triple_expect fun rbrace hrbrace => Triple.pure fun rest hread => ?_
    exact ⟨rbrace, hrbrace, [], hread.1, .noDeclarations⟩
  · have hfirst : Suffices depth (fun rest => P rest ∧ (ends → rest = [])) 12 :=
      h.step.rest fun rest ⟨hP, _⟩ => ⟨_, hP, Nat.le_refl _⟩
    refine (triple_recovering (ih.declaration _ hfirst)).bind fun first => ?_
    refine (ih.blockBody _ ?_).bind fun others => Triple.pure fun rest hread => ?_
    · refine h.step.token (by omega) fun rest hread => ?_
      obtain ⟨s, rfl, ts, ⟨hP, _⟩, hs⟩ := hread
      exact ⟨_, hP, by have := hs.length_pos rfl; grind⟩
    · obtain ⟨rbrace, hrbrace, us, ⟨s, rfl, ts, ⟨hP, _⟩, hs⟩, hothers⟩ := hread
      exact ⟨rbrace, hrbrace, ts ++ us, by simpa using hP, .moreDeclarations hs hothers⟩

private theorem statement_reads (ih : ReadsPrograms depth) (h : Suffices (depth + 1) P 11) :
    Triple P (statement (depth + 1)) (StatementRead P) := by
  have hs : Suffices depth P 10 := h.step
  have hs1 : Suffices depth P 1 := hs.mono (by omega)
  rw [statement_plain]
  refine triple_accept ?_ fun word hword => printStatement_read hword (hs.mono (by omega))
  refine triple_accept ?_ fun lbrace hlbrace => ?_
  rotate_left
  · refine (ih.blockBody _ ?_).bind fun body => Triple.pure fun rest hread => ?_
    · exact hs.token (by omega) fun rest ⟨hP, _⟩ => ⟨_, hP, by grind⟩
    · obtain ⟨rbrace, hrbrace, ts, ⟨hP, _⟩, hbody⟩ := hread
      exact ⟨lbrace :: (ts ++ [rbrace]), false, by simpa using hP,
        .block hlbrace hbody hrbrace, by simp⟩
  refine triple_accept ?_ fun word hword => ?_
  rotate_left
  · exact (ih.ifStatement P word hword hs1).weaken (fun _ h => h.1.1) fun _ _ => id
  refine triple_accept ?_ fun word hword => ?_
  rotate_left
  · exact (ih.whileStatement P word hword hs1).weaken (fun _ h => h.1.1.1) fun _ _ => id
  refine triple_accept ?_ fun word hword => ?_
  rotate_left
  · exact (ih.forStatement P word hword hs1).weaken (fun _ h => h.1.1.1.1) fun _ _ => id
  refine triple_accept ?_ fun word hword => ?_
  rotate_left
  · have hreturn := returnStatement_read (P := P) hword (hs.mono (by omega))
    exact hreturn.weaken (fun _ h => h.1.1.1.1.1) fun _ _ => id
  refine ((expressionStatement_read hs).weaken (fun _ h => h.1.1.1.1.1.1) fun s rest hread => ?_)
  obtain ⟨ts, hP, hd⟩ := hread
  exact ⟨ts, false, hP, .expressionStatement hd, by simp⟩

private theorem ifStatement_reads (ih : ReadsPrograms depth) {word : Token}
    (hword : word.kind = .ifWord) (h : Suffices (depth + 1) P 1) :
    Triple (fun rest => P (word :: rest)) (ifStatement (depth + 1) word.position)
      (StatementRead P) := by
  rw [ifStatement_plain]
  refine triple_expect fun lparen hlparen => (expression_read ?_).bind fun c =>
    triple_expect fun rparen hrparen => (ih.statement _ ?_).bind fun s => ?_
  · exact h.step.token (by omega) fun rest hP => ⟨_, hP, by grind⟩
  · exact h.step.token (by omega) fun rest ⟨ts, hP, _⟩ => ⟨_, hP, by grind⟩
  refine triple_accept ?_ fun other hother => ?_
  · refine Triple.pure fun rest hread => ?_
    obtain ⟨⟨us, isOpen, ⟨ts, hP, hc⟩, hs, _⟩, hnext⟩ := hread
    exact ⟨word :: lparen :: (ts ++ rparen :: us), true, by simpa using hP,
      .ifOnly hword hlparen hc hrparen hs, fun _ => hnext⟩
  · refine (ih.statement _ ?_).bind fun s' => Triple.pure fun rest hread => ?_
    · refine h.step.token (by omega) fun rest hread => ?_
      obtain ⟨us, isOpen, ⟨ts, hP, _⟩, _⟩ := hread
      exact ⟨_, hP, by grind⟩
    · obtain ⟨vs, isOpen', ⟨us, isOpen, ⟨ts, hP, hc⟩, hs, hnext⟩, hs', hnext'⟩ := hread
      -- an open statement would have taken the `else` itself
      have hclosed : isOpen = false := by
        cases isOpen with
        | false => rfl
        | true => exact absurd hother (hnext rfl other rfl)
      exact ⟨word :: lparen :: (ts ++ rparen :: (us ++ other :: vs)), isOpen', by simpa using hP,
        .ifElse hword hlparen hc hrparen hs (fun _ => hclosed) hother hs', hnext'⟩

private theorem whileStatement_reads (ih : ReadsPrograms depth) {word : Token}
    (hword : word.kind = .whileWord) (h : Suffices (depth + 1) P 1) :
    Triple (fun rest => P (word :: rest)) (whileStatement (depth + 1) word.position)
      (StatementRead P) := by
  rw [whileStatement_plain]
  refine triple_expect fun lparen hlparen => (expression_read ?_).bind fun c =>
    triple_expect fun rparen hrparen => (ih.statement _ ?_).bind fun s =>
    Triple.pure fun rest hread => ?_
  · exact h.step.token (by omega) fun rest hP => ⟨_, hP, by grind⟩
  · exact h.step.token (by omega) fun rest ⟨ts, hP, _⟩ => ⟨_, hP, by grind⟩
  · obtain ⟨us, isOpen, ⟨ts, hP, hc⟩, hs, hnext⟩ := hread
    exact ⟨word :: lparen :: (ts ++ rparen :: us), isOpen, by simpa using hP,
      .whileLoop hword hlparen hc hrparen hs, hnext⟩

private theorem forStatement_reads (ih : ReadsPrograms depth) {word : Token}
    (hword : word.kind = .forWord) (h : Suffices (depth + 1) P 1) :
    Triple (fun rest => P (word :: rest)) (forStatement (depth + 1) word.position)
      (StatementRead P) := by
  rw [forStatement_plain]
  refine triple_expect fun lparen hlparen => (forInitializer_read ?_).bind fun first =>
    (forCondition_read ?_).bind fun condition => triple_expect fun semicolon hsemicolon =>
    (forIncrement_read ?_).bind fun increment => triple_expect fun rparen hrparen =>
    (ih.statement _ ?_).bind fun s => Triple.pure fun rest hread => ?_
  · exact h.step.token (by omega) fun rest hP => ⟨_, hP, by grind⟩
  · exact h.step.token (by omega) fun rest ⟨ts, hP, _⟩ => ⟨_, hP, by grind⟩
  · refine h.step.token (by omega) fun rest hread => ?_
    obtain ⟨c, ⟨us, ⟨ts, hP, _⟩, _⟩, _⟩ := hread
    exact ⟨_, hP, by grind⟩
  · refine h.step.token (by omega) fun rest hread => ?_
    obtain ⟨vs, ⟨c, ⟨us, ⟨ts, hP, _⟩, _⟩, _⟩, _⟩ := hread
    exact ⟨_, hP, by grind⟩
  · obtain ⟨ws, isOpen, ⟨vs, ⟨c, ⟨us, ⟨ts, hP, hfirst⟩, hc⟩, hcondition⟩, hincrement⟩, hs, hnext⟩ :=
      hread
    rw [hcondition semicolon _ rfl]
    exact ⟨word :: lparen :: (ts ++ (us ++ semicolon :: (vs ++ rparen :: ws))), isOpen,
      by simpa using hP,
      .forLoop hword hlparen hfirst hc hsemicolon hincrement hrparen hs, hnext⟩

end

theorem readsPrograms (depth : Nat) : ReadsPrograms depth := by
  induction depth with
  | zero =>
    constructor
    · exact fun P h => triple_stuck h.not
    · exact fun P word _ h => triple_stuck fun rest => h.not (word :: rest)
    · exact fun P h => triple_stuck h.not
    · exact fun P h => triple_stuck h.not
    · exact fun P word _ h => triple_stuck fun rest => h.not (word :: rest)
    · exact fun P word _ h => triple_stuck fun rest => h.not (word :: rest)
    · exact fun P word _ h => triple_stuck fun rest => h.not (word :: rest)
  | succ depth ih =>
    constructor
    · exact fun P => declaration_reads ih
    · exact fun P word => functionDeclaration_reads ih
    · exact fun P => blockBody_reads ih
    · exact fun P => statement_reads ih
    · exact fun P word => ifStatement_reads ih
    · exact fun P word => whileStatement_reads ih
    · exact fun P word => forStatement_reads ih

private theorem program_reads {depth : Nat} {P : List Token → Prop} (h : Suffices depth P 13) :
    Triple P (program depth) fun p rest => rest = [] ∧ PhraseRead P .declarations p rest := by
  induction depth generalizing P with
  | zero => exact triple_stuck h.not
  | succ depth ih =>
    rw [program]
    refine triple_atEnd.bind fun ends => Triple.ite (fun hends => ?_) fun _ => ?_
    · refine Triple.pure fun rest hread => ?_
      exact ⟨hread.2 hends, [], hread.1, .noDeclarations⟩
    · have hfirst : Suffices depth (fun rest => P rest ∧ (ends → rest = [])) 12 :=
        h.step.rest fun rest ⟨hP, _⟩ => ⟨_, hP, Nat.le_refl _⟩
      refine (triple_recovering ((readsPrograms depth).declaration _ hfirst)).bind fun first => ?_
      refine (ih ?_).bind fun others => Triple.pure fun rest hread => ?_
      · refine h.step.token (by omega) fun rest hread => ?_
        obtain ⟨s, rfl, ts, ⟨hP, _⟩, hs⟩ := hread
        exact ⟨_, hP, by have := hs.length_pos rfl; grind⟩
      · obtain ⟨rfl, us, ⟨s, rfl, ts, ⟨hP, _⟩, hs⟩, hothers⟩ := hread
        exact ⟨rfl, ts ++ us, by simpa using hP, .moreDeclarations hs hothers⟩

/-- A text that is read without an error is a program, in the reading where every `else` belongs to
the nearest `if`. -/
theorem isNearestProgram_of_parseTokens {tokens : List Token} {stop : Position}
    (h : (parseTokens tokens stop).errors = []) :
    IsNearestProgram (parseTokens tokens stop).program tokens := by
  have hdepth : Suffices (parseDepth tokens) (fun rest => rest = tokens) 13 := by
    rintro _ rfl
    unfold parseDepth
    omega
  rw [parseTokens_errors] at h
  obtain ⟨p, rest, hp, rfl, ts, hts, hd⟩ :=
    (program_reads hdepth).reads ⟨tokens, stop, [], ()⟩ rfl h
  rw [List.append_nil] at hts
  subst hts
  rw [parseTokens_program, hp]
  exact hd

theorem isNearestProgram_of_parse? {source : Text} {q : Program Position}
    (h : parse? source = .ok q) : IsNearestProgram q (scan source).tokens := by
  obtain ⟨herrors, rfl⟩ := parse?_eq_ok.mp h
  rw [parse_errors] at herrors
  exact isNearestProgram_of_parseTokens (List.append_eq_nil_iff.mp herrors).2

end Lox.Parse
