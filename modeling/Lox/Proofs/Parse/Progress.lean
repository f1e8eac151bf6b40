import Lox.Proofs.Parse.Calls
import Lox.Proofs.Parse.Splice
import Lox.Proofs.Parse.Tape

/-! Reading ends for every list of tokens, and so does recovery: every call of `declaration` takes a
token, and one that gives up has reported an error and goes on where a statement is likely to
start. -/

namespace Lox

namespace Parse

/-- Where parsing goes on after an error: at the end, just after a semicolon, or at a word at which
a new statement is likely to start. -/
def AtBoundary (tokens rest : List Token) : Prop :=
  rest = [] ∨ (∃ before t, tokens = before ++ t :: rest ∧ t.kind = .semicolon) ∨
    ∃ t, rest.head? = some t ∧ t.kind.startsStatement = true

/-- A call begins before the end of the list, takes a token and stays in the list. If it gives up,
it has reported an error, and recovery reads nothing outside of the list. -/
structure Call.Progresses (tokens : List Token) (call : Call) : Prop where
  inside : call.start.rest <:+ tokens
  beforeEnd : call.start.rest ≠ []
  isCall : ∃ depth, declaration depth call.start = (call.read, call.stopped) ∧
    recovering (declaration depth) call.start = (some call.read, call.left)
  stops : call.stopped.rest <:+ call.start.rest
  takes : call.left.rest <:+ call.start.rest ∧ call.left.rest.length < call.start.rest.length
  reports : call.read = none → ∃ e es, call.left.errors = call.start.errors ++ e :: es
  recovers : call.read = none →
    Tape.synchronize? (tape tokens) (call.stopped.index tokens) = some (call.left.index tokens)
  resumes : call.read = none → AtBoundary tokens call.left.rest

private theorem atBoundary_drop (before rest : List Token) (t : Token) :
    AtBoundary (before ++ t :: rest) (dropToStatement t.kind rest) := by
  induction rest generalizing before t with
  | nil => exact .inl rfl
  | cons u rest ih =>
    rw [dropToStatement]
    split
    · rename_i hstop
      rcases Bool.or_eq_true_iff.mp hstop with hsemicolon | hstarts
      · exact .inr (.inl ⟨before, t, rfl, of_decide_eq_true hsemicolon⟩)
      · exact .inr (.inr ⟨u, rfl, hstarts⟩)
    · simpa using ih (before ++ [t]) u

private theorem atBoundary_resume {tokens : List Token} {c : Cursor Unit} (h : c.rest <:+ tokens) :
    AtBoundary tokens c.resume.rest := by
  obtain ⟨before, rfl⟩ := h
  obtain ⟨_ | ⟨t, rest⟩, stop, errors⟩ := c
  · exact .inl rfl
  · exact atBoundary_drop before rest t

section

variable {tokens : List Token} {depth n : Nat} {c c' : Cursor Unit}

theorem followsAt_declaration (hsuffix : c.rest <:+ tokens)
    (hdepth : 16 * c.rest.length + 12 ≤ depth) :
    FollowsAt (.same Unit) 1 c (declaration depth) (declaration depth) (Stmt.map id)
      (Stmt.Each (Mark.Written tokens)) := by
  have hmin : 16 * c.rest.length + 12 ≤ min depth depth := by omega
  have hfollows := (followsPrograms (.same Unit) tokens depth depth).declaration c.rest.length hmin
  exact hfollows c hsuffix.subset (Nat.le_refl _)

/-- A declaration that is given up has reported an error. -/
theorem declaration_reports (hdepth : 16 * c.rest.length + 12 ≤ depth)
    (hnone : declaration depth c = (none, c')) : ∃ e es, c'.errors = c.errors ++ e :: es := by
  have hsuffices : Suffices depth (fun rest => rest = c.rest) 12 := by
    rintro _ rfl
    exact hdepth
  have hread := (readsPrograms depth).declaration _ hsuffices
  have hgrows := hread.grows c
  rw [hnone] at hgrows
  obtain ⟨more, hmore⟩ := hgrows
  cases more with
  | cons e es => exact ⟨e, es, hmore.symm⟩
  | nil =>
    rw [List.append_nil] at hmore
    obtain ⟨s, rest, hs, -⟩ := hread.reads c rfl (by rw [hnone]; exact hmore.symm)
    rw [hnone] at hs
    cases hs

private theorem progresses_of_some {s : Stmt Position} (hsuffix : c.rest <:+ tokens)
    (hc : c.rest ≠ [])
    (hdepth : 16 * c.rest.length + 12 ≤ depth) (hread : declaration depth c = (some s, c')) :
    Call.Progresses tokens ⟨c, some s, c', c'⟩ := by
  obtain ⟨-, hstops, hresult⟩ := followsAt_declaration hsuffix hdepth
  rw [hread] at hstops hresult
  obtain ⟨-, hlength⟩ := hresult s rfl
  constructor
  case inside => exact hsuffix
  case beforeEnd => exact hc
  case isCall => exact ⟨depth, hread, by simp only [recovering, hread]⟩
  case stops => exact hstops
  case takes => exact ⟨hstops, hlength⟩
  all_goals
    intro hnone
    cases hnone

private theorem progresses_of_none (hsuffix : c.rest <:+ tokens) (hc : c.rest ≠ [])
    (hdepth : 16 * c.rest.length + 12 ≤ depth) (hread : declaration depth c = (none, c')) :
    Call.Progresses tokens ⟨c, none, c', c'.resume⟩ := by
  obtain ⟨-, hstops, -⟩ := followsAt_declaration hsuffix hdepth
  rw [hread] at hstops
  have htokens : tokens ≠ [] := by
    rintro rfl
    exact hc (List.suffix_nil.mp hsuffix)
  have hinside : c'.rest <:+ tokens := hstops.trans hsuffix
  obtain ⟨hresume, hlength⟩ := c'.resume_suffix
  constructor
  case inside => exact hsuffix
  case beforeEnd => exact hc
  case isCall => exact ⟨depth, hread, by simp only [recovering, hread]⟩
  case stops => exact hstops
  case takes =>
    have hpos := List.length_pos_iff.mpr hc
    have hle := hstops.length_le
    exact ⟨hresume.trans hstops, by dsimp only at *; omega⟩
  case reports =>
    intro _
    rw [Cursor.resume_errors]
    exact declaration_reports hdepth hread
  case recovers => exact fun _ => Tape.synchronize?_tape hinside htokens
  case resumes => exact fun _ => atBoundary_resume hinside

end

theorem accept_cases (kind : TokenKind) (c : Cursor Unit) : accept kind c = (some none, c) ∨
    ∃ t rest, c.rest = t :: rest ∧ accept kind c = (some (some t), { c with rest := rest }) := by
  unfold accept
  obtain ⟨_ | ⟨t, rest⟩, stop, errors⟩ := c
  · exact .inl rfl
  · by_cases hkind : t.kind = kind
    · exact .inr ⟨t, rest, rfl, by simp [Bind.bind, acceptWith, hkind]⟩
    · exact .inl (by simp [Bind.bind, acceptWith, hkind])

private theorem expect_cases (kind : TokenKind) (e : Expectation) (c : Cursor Unit) :
    (∃ c', expect kind e c = (none, c') ∧ c'.rest = c.rest) ∨
      ∃ t rest, c.rest = t :: rest ∧ expect kind e c = (some t, { c with rest := rest }) := by
  unfold expect
  rcases accept_cases kind c with hnone | ⟨t, rest, hrest, hsome⟩
  · left
    rw [bind_of_some hnone]
    obtain ⟨_ | ⟨t, rest⟩, stop, errors⟩ := c
    · exact ⟨_, rfl, rfl⟩
    · exact ⟨_, rfl, rfl⟩
  · right
    rw [bind_of_some hsome]
    exact ⟨t, rest, hrest, rfl⟩

namespace Traced

/-- From a cursor on, the step stays in the list, and the calls in it progress. -/
structure SoundAt (tokens : List Token) (c : Cursor Unit) {α : Type} (t : Traced α) : Prop where
  stays : (t.step c).2.rest <:+ c.rest
  calls : ∀ call ∈ (t c).2, call.Progresses tokens

/-- The step is sound from every cursor of the list with no more than `n` tokens. -/
def Sound (tokens : List Token) (n : Nat) {α : Type} (t : Traced α) : Prop :=
  ∀ c, c.rest <:+ tokens → c.rest.length ≤ n → SoundAt tokens c t

section

variable {tokens : List Token} {n m depth : Nat} {c c' : Cursor Unit} {α β : Type} {t : Traced α}
  {k : α → Traced β} {calls : List Call}

theorem SoundAt.bind_of_some {a : α} (ht : SoundAt tokens c t) (h : t c = ((some a, c'), calls))
    (hnext : SoundAt tokens c' (k a)) : SoundAt tokens c (t >>= k) := by
  obtain ⟨hstays, hcalls⟩ := ht
  have hbind : (t >>= k) c = ((k a c').1, calls ++ (k a c').2) := by
    simp only [Bind.bind, h]
  unfold step at hstays
  rw [h] at hstays hcalls
  constructor
  · unfold step
    rw [hbind]
    exact hnext.stays.trans hstays
  · rw [hbind]
    exact List.forall_mem_append.mpr ⟨hcalls, hnext.calls⟩

theorem SoundAt.bind_of_none (ht : SoundAt tokens c t) (h : t c = ((none, c'), calls)) :
    SoundAt tokens c (t >>= k) := by
  obtain ⟨hstays, hcalls⟩ := ht
  have hbind : (t >>= k) c = ((none, c'), calls) := by
    simp only [Bind.bind, h]
  unfold step at hstays
  rw [h] at hstays hcalls
  constructor
  · unfold step
    rw [hbind]
    exact hstays
  · rw [hbind]
    exact hcalls

theorem Sound.bind (ht : Sound tokens n t) (hk : ∀ a, Sound tokens n (k a)) :
    Sound tokens n (t >>= k) := by
  intro c hsuffix hn
  have hsound := ht c hsuffix hn
  rcases h : t c with ⟨⟨_ | a, c'⟩, calls⟩
  · exact hsound.bind_of_none h
  · have hstays := hsound.stays
    unfold step at hstays
    rw [h] at hstays
    have hlength := hstays.length_le
    apply hsound.bind_of_some h
    exact hk a c' (hstays.trans hsuffix) (Nat.le_trans hlength hn)

theorem sound_pure (a : α) : Sound tokens n (pure a) :=
  fun _ _ _ => ⟨List.suffix_rfl, nofun⟩

private theorem sound_ite {b : Prop} [Decidable b] {t' : Traced α} (ht : Sound tokens n t)
    (ht' : Sound tokens n t') : Sound tokens n (if b then t else t') := by
  split
  · exact ht
  · exact ht'

theorem soundAt_lift {p : Parse α} (hstays : (p c).2.rest <:+ c.rest) :
    SoundAt tokens c (lift p) :=
  ⟨hstays, nofun⟩

theorem sound_lift {p : Parse α} {taken : Nat} {h : α → α} {Q : α → Prop}
    (hp : Follows (.same Unit) tokens taken n p p h Q) : Sound tokens n (lift p) :=
  fun c hsuffix hn => soundAt_lift (hp c hsuffix.subset hn).suffix

theorem sound_look {p : Parse α} (hp : ∀ c, (p c).2 = c) : Sound tokens n (lift p) := by
  intro c _ _
  apply soundAt_lift
  exact ⟨[], by rw [hp, List.nil_append]⟩

theorem soundAt_taken {p : Parse α} {a : α} {word : Token} {rest : List Token}
    (hsuffix : c.rest <:+ tokens) (hn : c.rest.length ≤ n) (hrest : c.rest = word :: rest)
    (hp : p c = (some a, { c with rest := rest }))
    (hk : ∀ m, m < n → Sound tokens m (k a)) : SoundAt tokens c (lift p >>= k) := by
  have hcons : rest <:+ c.rest := by
    rw [hrest]
    exact List.suffix_cons word rest
  have hstays : (p c).2.rest <:+ c.rest := by
    rw [hp]
    exact hcons
  have hlift : (lift p : Traced α) c = ((some a, { c with rest := rest }), []) :=
    congrArg (·, []) hp
  have hlength : rest.length < n := by
    rw [hrest, List.length_cons] at hn
    exact hn
  apply (soundAt_lift hstays).bind_of_some hlift
  exact hk rest.length hlength _ (hcons.trans hsuffix) (Nat.le_refl _)

theorem sound_accept {kind : TokenKind} {k : Option Token → Traced β}
    (hnone : Sound tokens n (k none))
    (hsome : ∀ word m, m < n → Sound tokens m (k (some word))) :
    Sound tokens n (lift (accept kind) >>= k) := by
  intro c hsuffix hn
  rcases accept_cases kind c with h | ⟨word, rest, hrest, h⟩
  · have hlift : (lift (accept kind) : Traced _) c = ((some none, c), []) := congrArg (·, []) h
    have hstays : (accept kind c).2.rest <:+ c.rest := ⟨[], by rw [h, List.nil_append]⟩
    apply (soundAt_lift hstays).bind_of_some hlift
    exact hnone c hsuffix hn
  · exact soundAt_taken hsuffix hn hrest h (hsome word)

theorem sound_expect {kind : TokenKind} {e : Expectation} {k : Token → Traced β}
    (hk : ∀ t m, m < n → Sound tokens m (k t)) :
    Sound tokens n (lift (expect kind e) >>= k) := by
  intro c hsuffix hn
  rcases expect_cases kind e c with ⟨c', h, hrest⟩ | ⟨t, rest, hrest, h⟩
  · have hlift : (lift (expect kind e) : Traced _) c = ((none, c'), []) := congrArg (·, []) h
    have hstays : (expect kind e c).2.rest <:+ c.rest :=
      ⟨[], by rw [List.nil_append, h, ← hrest]⟩
    exact (soundAt_lift hstays).bind_of_none hlift
  · exact soundAt_taken hsuffix hn hrest h (hk t)

theorem sound_atEnd {k : Bool → Traced β} (hend : Sound tokens n (k true))
    (hmore : ∀ c, c.rest ≠ [] → c.rest <:+ tokens → c.rest.length ≤ n →
      SoundAt tokens c (k false)) : Sound tokens n (lift atEnd >>= k) := by
  intro c hsuffix hn
  have hlift : (lift atEnd : Traced _) c = ((some c.rest.isEmpty, c), []) := rfl
  apply (soundAt_lift List.suffix_rfl).bind_of_some hlift
  cases hrest : c.rest with
  | nil => exact hend c hsuffix hn
  | cons t rest => exact hmore c (by rw [hrest]; exact nofun) hsuffix hn

private theorem soundAt_called {call : Call} {s : Option (Stmt Position)}
    {t : Traced (Option (Stmt Position))} {k : Option (Stmt Position) → Traced β}
    (ht : t call.start = ((some s, call.left), call :: calls)) (hcall : call.Progresses tokens)
    (hcalls : ∀ call ∈ calls, call.Progresses tokens) (hn : call.start.rest.length ≤ n)
    (hk : ∀ m, m < n → Sound tokens m (k s)) : SoundAt tokens call.start (t >>= k) := by
  obtain ⟨hstays, hlength⟩ := hcall.takes
  have hsound : SoundAt tokens call.start t := by
    constructor
    · unfold step
      rw [ht]
      exact hstays
    · rw [ht]
      exact List.forall_mem_cons.mpr ⟨hcall, hcalls⟩
  have hless : call.left.rest.length < n := by omega
  apply hsound.bind_of_some ht
  exact hk _ hless call.left (hstays.trans hcall.inside) (Nat.le_refl _)

private theorem soundAt_recovering {t : Traced (Stmt Position)}
    {k : Option (Stmt Position) → Traced β}
    (ht : Sound tokens n t) (hstep : t.step = Parse.declaration depth)
    (hdepth : 16 * n + 12 ≤ depth) (hk : ∀ s m, m < n → Sound tokens m (k s)) (hc : c.rest ≠ [])
    (hsuffix : c.rest <:+ tokens) (hn : c.rest.length ≤ n) :
    SoundAt tokens c (recovering t >>= k) := by
  have hcalls := (ht c hsuffix hn).calls
  have hsame : (t c).1 = Parse.declaration depth c := congrFun hstep c
  have henough : 16 * c.rest.length + 12 ≤ depth := by omega
  rcases h : t c with ⟨⟨_ | s, c'⟩, calls⟩
  · rw [h] at hcalls hsame
    have hcall := progresses_of_none hsuffix hc henough hsame.symm
    have hrecovers : recovering t c =
        ((some none, c'.resume), ⟨c, none, c', c'.resume⟩ :: calls) := by
      simp only [recovering, h]
    exact soundAt_called hrecovers hcall hcalls hn (hk none)
  · rw [h] at hcalls hsame
    have hcall := progresses_of_some hsuffix hc henough hsame.symm
    have hreads : recovering t c = ((some (some s), c'), ⟨c, some s, c', c'⟩ :: calls) := by
      simp only [recovering, h]
    exact soundAt_called hreads hcall hcalls hn (hk (some s))

end

/-- What the steps of a depth are sound for. -/
structure SoundPrograms (tokens : List Token) (depth : Nat) : Prop where
  declaration : ∀ n, 16 * n + 12 ≤ depth → Sound tokens n (declaration depth)
  functionDeclaration : ∀ n note, 16 * n + 1 ≤ depth →
    Sound tokens n (functionDeclaration depth note)
  blockBody : ∀ n, 16 * n + 13 ≤ depth → Sound tokens n (blockBody depth)
  statement : ∀ n, 16 * n + 11 ≤ depth → Sound tokens n (statement depth)
  ifStatement : ∀ n note, 16 * n + 1 ≤ depth → Sound tokens n (ifStatement depth note)
  whileStatement : ∀ n note, 16 * n + 1 ≤ depth → Sound tokens n (whileStatement depth note)
  forStatement : ∀ n note, 16 * n + 1 ≤ depth → Sound tokens n (forStatement depth note)

section

variable {tokens : List Token} {depth n : Nat}

theorem sound_expression (hdepth : 16 * n + 10 ≤ depth) :
    Sound tokens n (lift (expression depth)) := by
  have hmin : 16 * n + 10 ≤ min depth depth := by omega
  exact sound_lift (expression_follows_of_enough hmin)

private theorem sound_declaration (ih : SoundPrograms tokens depth)
    (hdepth : 16 * n + 12 ≤ depth + 1) : Sound tokens n (declaration (depth + 1)) := by
  rw [declaration]
  apply sound_accept
  · apply sound_accept
    · exact ih.statement n (by omega)
    · intro word m hm
      exact sound_lift (varDeclaration_follows word.position (by omega))
  · intro word m hm
    exact ih.functionDeclaration m word.position (by omega)

private theorem sound_functionDeclaration (ih : SoundPrograms tokens depth) (note : Position)
    (hdepth : 16 * n + 1 ≤ depth + 1) : Sound tokens n (functionDeclaration (depth + 1) note) := by
  rw [functionDeclaration]
  apply sound_expect
  intro name m hm
  apply sound_expect
  intro paren m' hm'
  have hparams : Sound tokens m' (lift (parameters depth 0)) :=
    sound_lift (parameters_follow 0 (by omega))
  have hbody (params : List Name) : Sound tokens m'
      (do
        let _ ← lift (expect .rightParen .parenAfterParameters)
        let _ ← lift (expect .leftBrace .braceBeforeBody)
        let body ← blockBody depth
        return Stmt.funDecl note name.lexeme params body) := by
    apply sound_expect
    intro _ l hl
    apply sound_expect
    intro _ l' hl'
    apply (ih.blockBody l' (by omega)).bind
    intro body
    exact sound_pure _
  apply (sound_look fun _ => rfl).bind
  intro closes
  apply sound_ite
  · exact (sound_pure []).bind hbody
  · exact hparams.bind hbody

theorem soundAt_declarations {c : Cursor Unit} {rest : Traced (Program Position)}
    (hfirst : Sound tokens n (declaration depth)) (hdepth : 16 * n + 12 ≤ depth)
    (hrest : ∀ m, m < n → Sound tokens m rest) (hc : c.rest ≠ []) (hsuffix : c.rest <:+ tokens)
    (hn : c.rest.length ≤ n) :
    SoundAt tokens c
      (do
        let s ← recovering (declaration depth)
        let others ← rest
        return s.toList ++ others) := by
  apply soundAt_recovering hfirst (stepsPrograms depth).declaration hdepth ?_ hc hsuffix hn
  intro s m hm
  apply (hrest m hm).bind
  intro others
  exact sound_pure _

private theorem sound_blockBody (ih : SoundPrograms tokens depth)
    (hdepth : 16 * n + 13 ≤ depth + 1) : Sound tokens n (blockBody (depth + 1)) := by
  rw [blockBody]
  have hend : Sound tokens n
      (do
        let _ ← lift (expect .rightBrace .braceAfterBlock)
        return ([] : List (Stmt Position))) := by
    apply sound_expect
    intro _ m hm
    exact sound_pure _
  apply (sound_look fun _ => rfl).bind
  intro closes
  apply sound_atEnd
  · rw [Bool.or_true]
    exact hend
  · intro c hc hsuffix hn
    cases closes with
    | true => exact hend c hsuffix hn
    | false =>
      have hfirst : Sound tokens n (declaration depth) := ih.declaration n (by omega)
      have hrest (m : Nat) (hm : m < n) : Sound tokens m (blockBody depth) :=
        ih.blockBody m (by omega)
      exact soundAt_declarations hfirst (by omega) hrest hc hsuffix hn

private theorem sound_statement (ih : SoundPrograms tokens depth)
    (hdepth : 16 * n + 11 ≤ depth + 1) : Sound tokens n (statement (depth + 1)) := by
  rw [statement]
  have hprint (word : Token) (m : Nat) (hm : m < n) :
      Sound tokens m (lift (printStatement depth word.position)) :=
    sound_lift (printStatement_follows word.position (by omega))
  have hreturn (word : Token) (m : Nat) (hm : m < n) :
      Sound tokens m (lift (returnStatement depth word.position)) :=
    sound_lift (returnStatement_follows word.position (by omega))
  apply sound_accept ?_ hprint
  apply sound_accept ?_ fun brace m hm => (ih.blockBody m (by omega)).bind fun body => sound_pure _
  apply sound_accept ?_ fun word m hm => ih.ifStatement m word.position (by omega)
  apply sound_accept ?_ fun word m hm => ih.whileStatement m word.position (by omega)
  apply sound_accept ?_ fun word m hm => ih.forStatement m word.position (by omega)
  apply sound_accept ?_ hreturn
  exact sound_lift (expressionStatement_follows (by omega))

private theorem sound_ifStatement (ih : SoundPrograms tokens depth) (note : Position)
    (hdepth : 16 * n + 1 ≤ depth + 1) : Sound tokens n (ifStatement (depth + 1) note) := by
  rw [ifStatement]
  apply sound_expect
  intro _ m hm
  apply (sound_expression (by omega)).bind
  intro condition
  apply sound_expect
  intro _ m' hm'
  apply (ih.statement m' (by omega)).bind
  intro thenBranch
  apply sound_accept
  · exact sound_pure _
  · intro _ l hl
    apply (ih.statement l (by omega)).bind
    intro elseBranch
    exact sound_pure _

private theorem sound_whileStatement (ih : SoundPrograms tokens depth) (note : Position)
    (hdepth : 16 * n + 1 ≤ depth + 1) : Sound tokens n (whileStatement (depth + 1) note) := by
  rw [whileStatement]
  apply sound_expect
  intro _ m hm
  apply (sound_expression (by omega)).bind
  intro condition
  apply sound_expect
  intro _ m' hm'
  apply (ih.statement m' (by omega)).bind
  intro body
  exact sound_pure _

private theorem sound_forStatement (ih : SoundPrograms tokens depth) (note : Position)
    (hdepth : 16 * n + 1 ≤ depth + 1) : Sound tokens n (forStatement (depth + 1) note) := by
  rw [forStatement]
  apply sound_expect
  intro _ m hm
  apply (sound_lift (forInitializer_follows (by omega))).bind
  intro initializer
  apply (sound_lift (forCondition_follows (by omega))).bind
  intro condition
  apply sound_expect
  intro _ m' hm'
  apply (sound_lift (forIncrement_follows (by omega))).bind
  intro increment
  apply sound_expect
  intro _ l hl
  apply (ih.statement l (by omega)).bind
  intro body
  exact sound_pure _

end

private theorem soundPrograms (tokens : List Token) (depth : Nat) : SoundPrograms tokens depth := by
  induction depth with
  | zero => constructor <;> intros <;> omega
  | succ depth ih =>
    exact {
      declaration := fun _ => sound_declaration ih
      functionDeclaration := fun _ => sound_functionDeclaration ih
      blockBody := fun _ => sound_blockBody ih
      statement := fun _ => sound_statement ih
      ifStatement := fun _ => sound_ifStatement ih
      whileStatement := fun _ => sound_whileStatement ih
      forStatement := fun _ => sound_forStatement ih }

private theorem sound_program {tokens : List Token} {depth n : Nat} (hdepth : 16 * n + 13 ≤ depth) :
    Sound tokens n (program depth) := by
  induction depth generalizing n with
  | zero => omega
  | succ depth ih =>
    rw [program]
    apply sound_atEnd
    · exact sound_pure _
    · intro c hc hsuffix hn
      have hfirst := (soundPrograms tokens depth).declaration n (by omega)
      have hrest (m : Nat) (hm : m < n) : Sound tokens m (program depth) := ih (by omega)
      exact soundAt_declarations hfirst (by omega) hrest hc hsuffix hn

end Traced

section

variable {tokens : List Token} {depth depth' : Nat} {c c' : Cursor Unit}

/-- A program is read to the end. -/
theorem rest_of_program {p : Program Position} (h : program depth c = (some p, c')) :
    c'.rest = [] := by
  induction depth generalizing c p with
  | zero => cases h
  | succ depth ih =>
    have hend : atEnd c = (some c.rest.isEmpty, c) := rfl
    rw [program, bind_of_some hend] at h
    split at h
    · rename_i hempty
      cases h
      exact List.isEmpty_iff.mp hempty
    · rcases hfirst : recovering (declaration depth) c with ⟨_ | first, c₁⟩
      · rw [bind_of_none hfirst] at h
        cases h
      · rw [bind_of_some hfirst] at h
        rcases hrest : program depth c₁ with ⟨_ | rest, c₂⟩
        · rw [bind_of_none hrest] at h
          cases h
        · rw [bind_of_some hrest] at h
          cases h
          exact ih hrest

/-- With any depth that is enough, the same is read. -/
theorem program_of_enough (hdepth : 16 * c.rest.length + 13 ≤ depth)
    (hdepth' : 16 * c.rest.length + 13 ≤ depth') : program depth c = program depth' c := by
  have hsame {d : Nat} (hd : 16 * c.rest.length + 13 ≤ d) : program d c =
      ((program depth c).1.map (Program.map id), (program depth c).2.move (.same Unit)) := by
    have hfollows : FollowsStmts (.same Unit) c.rest c.rest.length (program depth) (program d) :=
      program_follows (Nat.le_min.mpr ⟨hdepth, hd⟩)
    have hmoved := (hfollows c (List.Subset.refl _) (Nat.le_refl _)).moved
    rwa [Cursor.move_same] at hmoved
  rw [hsame hdepth', ← hsame hdepth]

end

end Parse

/-- Reading any tokens comes to their end, with every greater depth in the same way. Every call of
`declaration` in it begins before the end, takes a token and stays in the list; one that gives up
has reported an error and goes on at a boundary. What the parser reads of the list by indices, here
and in recovery, lies inside of the list. -/
theorem parseTokens_progresses (tokens : List Token) (stop : Position) (more : Nat) :
    (∃ p c calls,
      Parse.Traced.program (parseDepth tokens + more) ⟨tokens, stop, [], ()⟩ =
        ((some p, c), calls) ∧
        Parse.program (parseDepth tokens + more) ⟨tokens, stop, [], ()⟩ = (some p, c) ∧
        parseTokens tokens stop = ⟨p, c.errors⟩ ∧ c.rest = [] ∧
        ∀ call ∈ calls, call.Progresses tokens) ∧
      ∀ c : Cursor Unit, c.rest <:+ tokens → Tape.Mirrors tokens c := by
  constructor
  · have hdepth : 16 * tokens.length + 13 ≤ parseDepth tokens := by
      unfold parseDepth
      omega
    have hmore : 16 * tokens.length + 13 ≤ parseDepth tokens + more := by omega
    obtain ⟨p, c, hp⟩ := Parse.exists_program (c := ⟨tokens, stop, [], ()⟩) hmore
    have hsame : Parse.program (parseDepth tokens) ⟨tokens, stop, [], ()⟩ = (some p, c) := by
      rw [← hp]
      exact Parse.program_of_enough hdepth hmore
    have hstep := congrFun (Parse.Traced.step_program (parseDepth tokens + more))
      ⟨tokens, stop, [], ()⟩
    have hsound : Parse.Traced.Sound tokens tokens.length _ := Parse.Traced.sound_program hmore
    have hcalls := (hsound ⟨tokens, stop, [], ()⟩ List.suffix_rfl (Nat.le_refl _)).calls
    rcases h : Parse.Traced.program (parseDepth tokens + more) ⟨tokens, stop, [], ()⟩ with
      ⟨result, calls⟩
    unfold Parse.Traced.step at hstep
    rw [h, hp] at hstep
    rw [h] at hcalls
    subst hstep
    refine ⟨p, c, calls, rfl, hp, ?_, Parse.rest_of_program hp, hcalls⟩
    rw [parseTokens, parseTokensWith]
    dsimp only
    rw [hsame]
    rfl
  · intro c hsuffix
    exact Tape.mirrors_of_suffix hsuffix

/-- Of a block that is never closed: where each call begins, whether it reads something, where it
stops and where parsing goes on. -/
example :
    let scanned := scan "{ print ; a } var 1; fun"
    let outcome := Parse.Traced.program (parseDepth scanned.tokens)
      ⟨scanned.tokens, scanned.stop, [], ()⟩
    outcome.2.map (fun call => (call.start.index scanned.tokens, call.read.isSome,
      call.stopped.index scanned.tokens, call.left.index scanned.tokens)) =
      [(0, false, 9, 9), (1, false, 2, 3), (3, false, 4, 5), (5, false, 6, 8),
        (8, false, 9, 9)] := by
  decide +kernel

end Lox
