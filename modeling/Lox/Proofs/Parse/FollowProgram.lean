import Lox.Proofs.Parse.FollowExpression

/-! Programs are read alike at other places, with notes from a supply that keeps in step, and with
any depth that is enough for sixteen steps a token, whether they hold errors or not. -/

namespace Lox.Parse

variable {σ σ' ν ν' : Type} [Supply σ Position ν] [Supply σ' Position ν']

/-- Two ways to read a statement from so many tokens, of which the second follows the first. -/
abbrev FollowsStmt (v : Supply.Step σ σ') (ts : List Token) (taken n : Nat)
    (p : Parser σ (Stmt ν)) (q : Parser σ' (Stmt ν')) : Prop :=
  Follows v ts taken n p q (Stmt.map v.note) (Stmt.Each (Mark.WrittenFor σ ts))

/-- Two ways to read statements from so many tokens, of which the second follows the first. -/
abbrev FollowsStmts (v : Supply.Step σ σ') (ts : List Token) (n : Nat)
    (p : Parser σ (Program ν)) (q : Parser σ' (Program ν')) : Prop :=
  Follows v ts 0 n p q (Program.map v.note) (Program.Each (Mark.WrittenFor σ ts))

/-- What each step follows with another depth. -/
structure FollowsPrograms (v : Supply.Step σ σ') (ts : List Token) (depth depth' : Nat) :
    Prop where
  declaration : ∀ n, 16 * n + 12 ≤ min depth depth' →
    FollowsStmt v ts 1 n (declaration depth) (declaration depth')
  functionDeclaration : ∀ n note, 16 * n + 1 ≤ min depth depth' →
    FollowsStmt v ts 0 n (functionDeclaration depth note)
      (functionDeclaration depth' (v.position note))
  blockBody : ∀ n, 16 * n + 13 ≤ min depth depth' →
    FollowsStmts v ts n (blockBody depth) (blockBody depth')
  statement : ∀ n, 16 * n + 11 ≤ min depth depth' →
    FollowsStmt v ts 1 n (statement depth) (statement depth')
  ifStatement : ∀ n note, 16 * n + 1 ≤ min depth depth' →
    FollowsStmt v ts 0 n (ifStatement depth note) (ifStatement depth' (v.position note))
  whileStatement : ∀ n note, 16 * n + 1 ≤ min depth depth' →
    FollowsStmt v ts 0 n (whileStatement depth note) (whileStatement depth' (v.position note))
  forStatement : ∀ n note, 16 * n + 1 ≤ min depth depth' →
    FollowsStmt v ts 0 n (forStatement depth note) (forStatement depth' (v.position note))

section

variable {v : Supply.Step σ σ'} {ts : List Token} {depth depth' n : Nat}

theorem expression_follows_of_enough (hn : 16 * n + 10 ≤ min depth depth') :
    FollowsExpr v ts n (expression depth) (expression depth') :=
  (followsExpressions v ts depth depth').expression n hn

theorem some_expression_follows (hn : 16 * n + 10 ≤ min depth depth') :
    Follows v ts 0 n (some <$> expression depth) (some <$> expression depth')
      (Option.map (Expr.map v.note)) (Expr.Each? (Mark.WrittenFor σ ts)) := by
  refine (expression_follows_of_enough hn).map (fun _ => rfl) fun e he => ?_
  rintro _ ⟨⟩
  exact he

theorem parameters_follow (count : Nat) (hn : 16 * n + 1 ≤ min depth depth') :
    Follows v ts 0 n (parameters depth count) (parameters depth' count) id
      fun xs => ∀ x ∈ xs, ∃ t ∈ ts, t.kind = .identifier ∧ t.lexeme = x := by
  induction depth generalizing depth' n count with
  | zero => omega
  | succ depth ih =>
    obtain ⟨depth', rfl⟩ : ∃ d, depth' = d + 1 := ⟨depth' - 1, by omega⟩
    rw [parameters, parameters]
    refine follows_reportWhen (follows_expect fun name m hname hkind hm => ?_)
    refine follows_accept ?_ fun comma m' _ _ hm' => ?_
    · refine follows_pure rfl fun x hx => ?_
      rw [List.mem_singleton.mp hx]
      exact ⟨name, hname, hkind, rfl⟩
    · refine (ih (count + 1) (by omega)).bind fun xs hxs => follows_pure rfl fun x hx => ?_
      rcases List.mem_cons.mp hx with rfl | hx
      · exact ⟨name, hname, hkind, rfl⟩
      · exact hxs x hx

theorem varDeclaration_follows (note : Position) (hn : 16 * n ≤ min depth depth') :
    FollowsStmt v ts 0 n (varDeclaration depth note) (varDeclaration depth' (v.position note)) := by
  rw [varDeclaration, varDeclaration]
  refine follows_expect fun name m hname hkind hm => ?_
  have hrest (e : Option (Expr ν)) (he : Expr.Each? (Mark.WrittenFor σ ts) e) (m : Nat) :
      FollowsStmt v ts 0 m
        (do
          let _ ← expect .semicolon .semicolonAfterDeclaration
          return .varDecl (← draw note) name.lexeme e)
        (do
          let _ ← expect .semicolon .semicolonAfterDeclaration
          return .varDecl (← draw (v.position note)) name.lexeme (e.map (Expr.map v.note))) := by
    refine follows_expect fun _ _ _ _ _ => follows_draw fun note _ => ?_
    refine follows_pure rfl ⟨fun x hx => ?_, he⟩
    rw [List.mem_singleton.mp hx]
    exact ⟨name, hname, hkind, rfl⟩
  refine follows_accept ?_ fun sign m' _ _ hm' => ?_
  · exact (follows_pure (h := Option.map (Expr.map v.note)) rfl nofun).bind fun e he => hrest e he m
  · exact (some_expression_follows (by omega)).bind fun e he => hrest e he m'

theorem expressionStatement_follows (hn : 16 * n + 10 ≤ min depth depth') :
    FollowsStmt v ts 1 n (expressionStatement depth) (expressionStatement depth') := by
  rw [expressionStatement, expressionStatement]
  refine follows_place fun note => (expression_follows_of_enough hn).bind fun e he => ?_
  refine follows_expect fun _ _ _ _ _ => follows_draw fun note _ => ?_
  exact follows_pure rfl ⟨trivial, he⟩

theorem printStatement_follows (note : Position) (hn : 16 * n + 10 ≤ min depth depth') :
    FollowsStmt v ts 0 n (printStatement depth note) (printStatement depth' (v.position note)) := by
  rw [printStatement, printStatement]
  refine (expression_follows_of_enough hn).bind fun e he => ?_
  refine follows_expect fun _ _ _ _ _ => follows_draw fun note _ => ?_
  exact follows_pure rfl ⟨trivial, he⟩

theorem returnStatement_follows (note : Position) (hn : 16 * n + 10 ≤ min depth depth') :
    FollowsStmt v ts 0 n (returnStatement depth note)
      (returnStatement depth' (v.position note)) := by
  rw [returnStatement, returnStatement]
  have hrest (e : Option (Expr ν)) (he : Expr.Each? (Mark.WrittenFor σ ts) e) :
      FollowsStmt v ts 0 n
        (do
          let _ ← expect .semicolon .semicolonAfterReturn
          return .returnStmt (← draw note) e)
        (do
          let _ ← expect .semicolon .semicolonAfterReturn
          return .returnStmt (← draw (v.position note)) (e.map (Expr.map v.note))) :=
    follows_expect fun _ _ _ _ _ => follows_draw fun _ _ => follows_pure rfl ⟨trivial, he⟩
  refine follows_check fun ends => follows_ite ?_ ?_
  · exact (follows_pure (h := Option.map (Expr.map v.note)) rfl nofun).bind hrest
  · exact (some_expression_follows hn).bind hrest

theorem forInitializer_follows (hn : 16 * n + 10 ≤ min depth depth') :
    Follows v ts 0 n (forInitializer depth) (forInitializer depth') (Option.map (Stmt.map v.note))
      fun first => ∀ s ∈ first, s.Each (Mark.WrittenFor σ ts) := by
  rw [forInitializer, forInitializer]
  refine follows_accept (follows_accept ?_ fun word m _ _ hm => ?_) fun _ _ _ _ _ => ?_
  · have hstmt : FollowsStmt v ts 1 n _ _ := expressionStatement_follows hn
    refine (hstmt.mono (Nat.le_refl n) (Nat.zero_le 1)).map (fun _ => rfl) fun s hs => ?_
    rintro _ ⟨⟩
    exact hs
  · refine (varDeclaration_follows word.position (by omega)).map (fun _ => rfl) fun s hs => ?_
    rintro _ ⟨⟩
    exact hs
  · exact follows_pure rfl nofun

theorem forCondition_follows (hn : 16 * n + 10 ≤ min depth depth') :
    FollowsExpr v ts n (forCondition depth) (forCondition depth') := by
  rw [forCondition, forCondition]
  refine follows_check fun ends => follows_ite (follows_place fun note => ?_) ?_
  · exact follows_draw fun _ _ => follows_pure rfl (.inl rfl)
  · exact expression_follows_of_enough hn

theorem forIncrement_follows (hn : 16 * n + 10 ≤ min depth depth') :
    Follows v ts 0 n (forIncrement depth) (forIncrement depth') (Option.map (Expr.map v.note))
      (Expr.Each? (Mark.WrittenFor σ ts)) := by
  rw [forIncrement, forIncrement]
  exact follows_check fun ends => follows_ite (follows_pure rfl nofun) (some_expression_follows hn)

private theorem followedBy_follows {body : Stmt ν} (hbody : body.Each (Mark.WrittenFor σ ts))
    {increment : Option (Expr ν)} (hincrement : Expr.Each? (Mark.WrittenFor σ ts) increment) :
    FollowsStmt v ts 0 n (followedBy body increment)
      (followedBy (body.map v.note) (increment.map (Expr.map v.note))) := by
  cases increment with
  | none => exact follows_pure rfl hbody
  | some e =>
    rw [followedBy, Option.map_some, followedBy, Expr.note_map, Stmt.note_map]
    refine follows_redraw fun note _ => follows_redraw fun note' _ => follows_pure rfl ?_
    exact ⟨trivial, hbody, ⟨trivial, hincrement e rfl⟩, trivial⟩

private theorem forLoop_follows (note : Position) {first : Option (Stmt ν)}
    (hfirst : ∀ s ∈ first, s.Each (Mark.WrittenFor σ ts)) {c : Expr ν}
    (hc : c.Each (Mark.WrittenFor σ ts)) {increment : Option (Expr ν)}
    (hincrement : Expr.Each? (Mark.WrittenFor σ ts) increment) {body : Stmt ν}
    (hbody : body.Each (Mark.WrittenFor σ ts)) :
    FollowsStmt v ts 0 n (forLoop note first c increment body)
      (forLoop (v.position note) (first.map (Stmt.map v.note)) (c.map v.note)
        (increment.map (Expr.map v.note)) (body.map v.note)) := by
  rw [forLoop, forLoop]
  refine (followedBy_follows hbody hincrement).bind fun round hround => follows_draw fun _ _ => ?_
  cases first with
  | none => exact follows_pure rfl ⟨trivial, hc, hround⟩
  | some s =>
    refine follows_draw fun _ _ => follows_pure rfl ?_
    exact ⟨trivial, hfirst s rfl, ⟨trivial, hc, hround⟩, trivial⟩

private theorem declaration_follows (ih : FollowsPrograms v ts depth depth')
    (hn : 16 * n + 12 ≤ min (depth + 1) (depth' + 1)) :
    FollowsStmt v ts 1 n (declaration (depth + 1)) (declaration (depth' + 1)) := by
  rw [declaration, declaration]
  refine follows_accept (follows_accept ?_ fun word m _ _ hm => ?_) fun word m _ _ hm => ?_
  · exact ih.statement n (by omega)
  · exact varDeclaration_follows word.position (by omega)
  · exact ih.functionDeclaration m word.position (by omega)

private theorem functionDeclaration_follows (ih : FollowsPrograms v ts depth depth')
    (note : Position) (hn : 16 * n + 1 ≤ min (depth + 1) (depth' + 1)) :
    FollowsStmt v ts 0 n (functionDeclaration (depth + 1) note)
      (functionDeclaration (depth' + 1) (v.position note)) := by
  rw [functionDeclaration, functionDeclaration]
  refine follows_expect fun name m hname hkind hm => follows_expect fun _ m' _ _ hm' => ?_
  have hrest (xs : List Name)
      (hxs : ∀ x ∈ xs, ∃ t ∈ ts, t.kind = .identifier ∧ t.lexeme = x) :
      FollowsStmt v ts 0 m'
        (do
          let _ ← expect .rightParen .parenAfterParameters
          let _ ← expect .leftBrace .braceBeforeBody
          let body ← blockBody depth
          return .funDecl (← draw note) name.lexeme xs body)
        (do
          let _ ← expect .rightParen .parenAfterParameters
          let _ ← expect .leftBrace .braceBeforeBody
          let body ← blockBody depth'
          return .funDecl (← draw (v.position note)) name.lexeme xs body) := by
    refine follows_expect fun _ k _ _ hk => follows_expect fun _ k' _ _ hk' => ?_
    refine (ih.blockBody k' (by omega)).bind fun body hbody => follows_draw fun note _ => ?_
    refine follows_pure rfl ⟨fun x hx => ?_, hbody⟩
    rcases List.mem_cons.mp hx with rfl | hx
    · exact ⟨name, hname, hkind, rfl⟩
    · exact hxs x hx
  refine follows_check fun closes => follows_ite ?_ ?_
  · exact (follows_pure (h := id) rfl nofun).bind hrest
  · exact (parameters_follow 0 (by omega)).bind hrest

/-- A declaration, or what is read in its place after an error, and those after it. -/
theorem follows_declarations {n : Nat} {first : Parser σ (Stmt ν)} {first' : Parser σ' (Stmt ν')}
    {rest : Parser σ (Program ν)} {rest' : Parser σ' (Program ν')}
    (hfirst : FollowsStmt v ts 1 n first first')
    (hrest : FollowsStmts v ts (n - 1) rest rest') {c : Cursor σ} (hc : c.rest ≠ [])
    (hts : c.rest ⊆ ts) (hlength : c.rest.length ≤ n) :
    FollowsAt v 0 c
      (do
        let s ← recovering first
        let others ← rest
        return s.toList ++ others)
      (do
        let s ← recovering first'
        let others ← rest'
        return s.toList ++ others)
      (Program.map v.note) (Program.Each (Mark.WrittenFor σ ts)) := by
  refine (FollowsAt.recovering hfirst (fun s hs => ?_) hc hts hlength).mono (Nat.zero_le 1)
  refine hrest.bind fun others hothers => follows_pure ?_ ?_
  · rw [Program.map_append, Program.map_toList]
  · refine Program.Each.append ?_ hothers
    cases s with
    | none => exact trivial
    | some s => exact ⟨hs s rfl, trivial⟩

private theorem blockBody_follows (ih : FollowsPrograms v ts depth depth')
    (hn : 16 * n + 13 ≤ min (depth + 1) (depth' + 1)) :
    FollowsStmts v ts n (blockBody (depth + 1)) (blockBody (depth' + 1)) := by
  rw [blockBody, blockBody]
  have hend {e : Expectation} : FollowsStmts v ts n
      (do
        let _ ← expect .rightBrace e
        return [])
      (do
        let _ ← expect .rightBrace e
        return []) :=
    follows_expect fun _ _ _ _ _ => follows_pure rfl trivial
  refine follows_check fun closes => follows_atEnd ?_ fun c hc hts hlength => ?_
  · rw [Bool.or_true]
    exact hend
  · cases closes with
    | true => exact hend c hts hlength
    | false =>
      have hrest : FollowsStmts v ts (n - 1) (blockBody depth) (blockBody depth') := by
        have := List.length_pos_iff.mpr hc
        exact ih.blockBody (n - 1) (by omega)
      exact follows_declarations (ih.declaration n (by omega)) hrest hc hts hlength

private theorem statement_follows (ih : FollowsPrograms v ts depth depth')
    (hn : 16 * n + 11 ≤ min (depth + 1) (depth' + 1)) :
    FollowsStmt v ts 1 n (statement (depth + 1)) (statement (depth' + 1)) := by
  rw [statement, statement]
  refine follows_accept ?_ fun word m _ _ hm => printStatement_follows word.position (by omega)
  refine follows_accept ?_ fun brace m _ _ hm => ?_
  rotate_left
  · exact (ih.blockBody m (by omega)).bind fun body hbody => follows_draw fun _ _ =>
      follows_pure rfl ⟨trivial, hbody⟩
  refine follows_accept ?_ fun word m _ _ hm => ih.ifStatement m word.position (by omega)
  refine follows_accept ?_ fun word m _ _ hm => ih.whileStatement m word.position (by omega)
  refine follows_accept ?_ fun word m _ _ hm => ih.forStatement m word.position (by omega)
  refine follows_accept ?_ fun word m _ _ hm => returnStatement_follows word.position (by omega)
  exact expressionStatement_follows (by omega)

private theorem ifStatement_follows (ih : FollowsPrograms v ts depth depth') (note : Position)
    (hn : 16 * n + 1 ≤ min (depth + 1) (depth' + 1)) :
    FollowsStmt v ts 0 n (ifStatement (depth + 1) note)
      (ifStatement (depth' + 1) (v.position note)) := by
  rw [ifStatement, ifStatement]
  refine follows_expect fun _ m _ _ hm => ?_
  refine (expression_follows_of_enough (by omega)).bind fun c hc => ?_
  refine follows_expect fun _ m' _ _ hm' => ?_
  have hstmt : FollowsStmt v ts 0 m' (statement depth) (statement depth') :=
    (ih.statement m' (by omega)).mono (Nat.le_refl m') (Nat.zero_le 1)
  refine hstmt.bind fun s hs => ?_
  refine follows_accept (follows_draw fun _ _ => follows_pure rfl ⟨trivial, hc, hs⟩)
    fun _ k _ _ hk => ?_
  refine (hstmt.mono (Nat.le_of_lt hk) (Nat.le_refl 0)).bind fun s' hs' => ?_
  exact follows_draw fun _ _ => follows_pure rfl ⟨trivial, hc, hs, hs'⟩

private theorem whileStatement_follows (ih : FollowsPrograms v ts depth depth') (note : Position)
    (hn : 16 * n + 1 ≤ min (depth + 1) (depth' + 1)) :
    FollowsStmt v ts 0 n (whileStatement (depth + 1) note)
      (whileStatement (depth' + 1) (v.position note)) := by
  rw [whileStatement, whileStatement]
  refine follows_expect fun _ m _ _ hm => ?_
  refine (expression_follows_of_enough (by omega)).bind fun c hc => ?_
  refine follows_expect fun _ m' _ _ hm' => ?_
  have hstmt : FollowsStmt v ts 1 m' (statement depth) (statement depth') :=
    ih.statement m' (by omega)
  refine (hstmt.mono (Nat.le_refl m') (Nat.zero_le 1)).bind fun s hs => ?_
  exact follows_draw fun _ _ => follows_pure rfl ⟨trivial, hc, hs⟩

private theorem forStatement_follows (ih : FollowsPrograms v ts depth depth') (note : Position)
    (hn : 16 * n + 1 ≤ min (depth + 1) (depth' + 1)) :
    FollowsStmt v ts 0 n (forStatement (depth + 1) note)
      (forStatement (depth' + 1) (v.position note)) := by
  rw [forStatement, forStatement]
  refine follows_expect fun _ m _ _ hm => ?_
  refine (forInitializer_follows (by omega)).bind fun first hfirst => ?_
  refine (forCondition_follows (by omega)).bind fun c hc => ?_
  refine follows_expect fun _ m' _ _ hm' => ?_
  refine (forIncrement_follows (by omega)).bind fun increment hincrement => ?_
  refine follows_expect fun _ k _ _ hk => ?_
  have hstmt : FollowsStmt v ts 1 k (statement depth) (statement depth') :=
    ih.statement k (by omega)
  refine (hstmt.mono (Nat.le_refl k) (Nat.zero_le 1)).bind fun body hbody => ?_
  exact forLoop_follows note hfirst hc hincrement hbody

end

theorem followsPrograms (v : Supply.Step σ σ') (ts : List Token) (depth depth' : Nat) :
    FollowsPrograms v ts depth depth' := by
  induction depth generalizing depth' with
  | zero => constructor <;> intros <;> omega
  | succ depth ih =>
    cases depth' with
    | zero => constructor <;> intros <;> omega
    | succ depth' =>
      exact {
        declaration := fun _ => declaration_follows (ih depth')
        functionDeclaration := fun _ => functionDeclaration_follows (ih depth')
        blockBody := fun _ => blockBody_follows (ih depth')
        statement := fun _ => statement_follows (ih depth')
        ifStatement := fun _ => ifStatement_follows (ih depth')
        whileStatement := fun _ => whileStatement_follows (ih depth')
        forStatement := fun _ => forStatement_follows (ih depth') }

/-- A program is read alike at other places and with any depth that is enough. -/
theorem program_follows {v : Supply.Step σ σ'} {ts : List Token} {depth depth' n : Nat}
    (hn : 16 * n + 13 ≤ min depth depth') :
    FollowsStmts v ts n (program depth) (program depth') := by
  induction depth generalizing depth' n with
  | zero => omega
  | succ depth ih =>
    obtain ⟨depth', rfl⟩ : ∃ d, depth' = d + 1 := ⟨depth' - 1, by omega⟩
    rw [program, program]
    refine follows_atEnd (follows_pure rfl trivial) fun c hc hts hlength => ?_
    have hpos := List.length_pos_iff.mpr hc
    have hfirst := (followsPrograms v ts depth depth').declaration n (by omega)
    exact follows_declarations hfirst (ih (by omega)) hc hts hlength

private theorem parseDepth_follows (v : Supply.Step σ σ') (tokens : List Token) :
    FollowsStmts v tokens tokens.length (program (parseDepth tokens))
      (program (parseDepth tokens)) := by
  refine program_follows ?_
  unfold parseDepth
  omega

/-- With notes from another supply that keeps in step, a text is read alike, with the same
errors. -/
theorem parseTokensWith_move (v : Supply.Step σ σ') (supply : σ) (tokens : List Token)
    (stop : Position) :
    parseTokensWith (v.left supply) (tokens.map (Token.move v.position)) (v.position stop) =
      let parsed := parseTokensWith supply tokens stop
      (⟨Program.map v.note parsed.1.program,
        parsed.1.errors.map (SourceError.move v.position)⟩, v.left parsed.2) := by
  have hmoved : program (parseDepth tokens) ⟨tokens.map (Token.move v.position), v.position stop,
      [], v.left supply⟩ = _ :=
    (parseDepth_follows v tokens ⟨tokens, stop, [], supply⟩ (List.Subset.refl _)
      (Nat.le_refl _)).moved
  have hdepth : parseDepth (tokens.map (Token.move v.position)) = parseDepth tokens := by
    rw [parseDepth, parseDepth, List.length_map]
  dsimp only [parseTokensWith]
  rw [hdepth, hmoved]
  cases (program (parseDepth tokens) ⟨tokens, stop, [], supply⟩ : Option (Program ν) × _).1 <;> rfl

/-- The program of a text, with or without errors, is made of its tokens. -/
theorem each_parseTokensWith (supply : σ) (tokens : List Token) (stop : Position) :
    Program.Each (Mark.WrittenFor σ tokens) (parseTokensWith supply tokens stop).1.program := by
  have hresult := (parseDepth_follows (Supply.Step.same σ) tokens ⟨tokens, stop, [], supply⟩
    (List.Subset.refl _) (Nat.le_refl _)).result
  rw [parseTokensWith]
  dsimp only
  cases h : (program (parseDepth tokens) ⟨tokens, stop, [], supply⟩ : Option (Program ν) × _).1 with
  | none => exact trivial
  | some p => exact (hresult p h).1

theorem each_parse (source : Text) :
    Program.Each (Mark.Written (scan source).tokens) (parse source).program :=
  each_parseTokensWith () _ _

end Lox.Parse
