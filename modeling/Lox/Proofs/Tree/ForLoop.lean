import Lox.Proofs.Resolution.Parsed
import Lox.Proofs.Tree.Each

/-! Loops with clauses: how the grammar has them, and the trees of blocks and plain loops that stand
for them. -/

namespace Lox

/-- A loop as it is written. Each of its clauses may be absent. -/
structure ForLoop (α : Type) where
  initializer : Option (Stmt α)
  condition : Option (Expr α)
  increment : Option (Expr α)
  body : Stmt α

namespace ForLoop

variable {α β : Type}

def map (f : α → β) (l : ForLoop α) : ForLoop β where
  initializer := l.initializer.map (Stmt.map f)
  condition := l.condition.map (Expr.map f)
  increment := l.increment.map (Expr.map f)
  body := l.body.map f

/-- What the loop tests before every round; an absent condition is true. -/
inductive Tests : Option (Expr α) → Expr α → Prop where
  | absent {n} : Tests none (.literal n (.bool true))
  | present {c} : Tests (some c) c

/-- What the loop does in a round: the body, and the increment in a block around both. -/
inductive Repeats (body : Stmt α) : Option (Expr α) → Stmt α → Prop where
  | plain : Repeats body none body
  | followed {n m e} : Repeats body (some e) (.block n [body, .expression m e])

/-- The tree stands for the loop, whatever the annotations of the nodes that it adds. -/
inductive Desugars : ForLoop α → Stmt α → Prop where
  | whileLoop {n c test increment body round} : Tests c test → Repeats body increment round →
      Desugars ⟨none, c, increment, body⟩ (.whileLoop n test round)
  | block {n m first c test increment body round} : Tests c test → Repeats body increment round →
      Desugars ⟨some first, c, increment, body⟩ (.block n [first, .whileLoop m test round])

/-- The tokens of a `for` statement with these parts, of which the clauses are derived from the
grammar, and so is the body. -/
inductive Written (nearest : Bool) : ForLoop Position → List Token → Prop where
  | mk {word lparen first ts c us semicolon increment vs rparen isOpen body ws} :
      word.kind = .forWord → lparen.kind = .leftParen →
      Grammar.Derives nearest (.forClause first) ts →
      Grammar.Derives nearest (.optional c) us → semicolon.kind = .semicolon →
      Grammar.Derives nearest (.optional increment) vs → rparen.kind = .rightParen →
      Grammar.Derives nearest (.statement isOpen body) ws →
      Written nearest ⟨first, c, increment, body⟩
        (word :: lparen :: (ts ++ (us ++ semicolon :: (vs ++ rparen :: ws))))

theorem Written.plain {nearest : Bool} {l : ForLoop Position} {ts : List Token}
    (h : Written nearest l ts) : l.body.Plain := by
  cases h with
  | mk _ _ _ _ _ _ _ hbody => exact hbody.isScoped

end ForLoop

/-- A statement that starts with the word `for` is a loop with clauses. -/
theorem Grammar.Derives.exists_forLoop {nearest isOpen : Bool} {tree : Stmt Position} {word : Token}
    {ts : List Token} (h : Derives nearest (.statement isOpen tree) (word :: ts))
    (hword : word.kind = .forWord) : ∃ (l : ForLoop Position) (place : Position),
      l.Written nearest (word :: ts) ∧ tree = .forLoop word.position l.initializer
        (l.condition.getD (.literal place (.bool true))) l.increment l.body := by
  cases h with
  | forLoop _ hlparen hfirst hc hsemicolon hincrement hrparen hbody =>
    exact ⟨_, _, .mk hword hlparen hfirst hc hsemicolon hincrement hrparen hbody, rfl⟩
  | expressionStatement h =>
    obtain ⟨t, ht, hstart⟩ := h.start rfl
    cases ht
    rw [hword] at hstart
    exact absurd hstart (by decide)
  | print h | returnStmt h | block h | ifOnly h | ifElse h | whileLoop h =>
    rw [hword] at h
    cases h

/-- The only statement of a text that starts with the word `for` is derived as one. -/
theorem Grammar.exists_derives_of_parse? {source : Text} {tree : Stmt Position}
    (hparse : parse? source = .ok [tree])
    (hfor : (scan source).tokens.head?.map Token.kind = some .forWord) : ∃ isOpen word ts,
      word.kind = .forWord ∧ Derives true (.statement isOpen tree) (word :: ts) := by
  have hderives : Derives true (.declarations [tree]) (scan source).tokens :=
    Parse.isNearestProgram_of_parse? hparse
  generalize (scan source).tokens = tokens at hfor hderives
  cases hderives with
  | @moreDeclarations _ _ ts us hdeclaration hrest =>
  cases hrest
  rw [List.append_nil] at hfor
  cases ts with
  | nil => cases hfor
  | cons word ts =>
    have hword : word.kind = .forWord := Option.some.inj hfor
    cases hdeclaration with
    | function hfun =>
      rw [hword] at hfun
      cases hfun
    | variableDeclaration hdecl =>
      obtain ⟨t, ht, hstart⟩ := hdecl.start rfl
      cases ht
      rw [hword] at hstart
      exact absurd hstart (by decide)
    | statement hstmt => exact ⟨_, word, ts, hword, hstmt⟩

section Map

variable {α β : Type} {f : α → β}

private theorem Expr.eq_literal_of_map {e : Expr α} {n : β} {v : Literal}
    (h : e.map f = .literal n v) : ∃ m, e = .literal m v := by
  cases e <;> cases h
  exact ⟨_, rfl⟩

private theorem Stmt.eq_expression_of_map {s : Stmt α} {n : β} {e : Expr β}
    (h : s.map f = .expression n e) : ∃ m e', s = .expression m e' ∧ e'.map f = e := by
  cases s with
  | expression m e' =>
    cases h
    exact ⟨m, e', rfl, rfl⟩
  | ifElse _ _ _ e => cases e <;> cases h
  | _ => cases h

theorem Stmt.eq_block_of_map {s : Stmt α} {n : β} {body : Program β} (h : s.map f = .block n body) :
    ∃ m body', s = .block m body' ∧ Program.map f body' = body := by
  cases s with
  | block m body' =>
    cases h
    exact ⟨m, body', rfl, rfl⟩
  | ifElse _ _ _ e => cases e <;> cases h
  | _ => cases h

private theorem Stmt.eq_whileLoop_of_map {s : Stmt α} {n : β} {c : Expr β} {body : Stmt β}
    (h : s.map f = .whileLoop n c body) :
    ∃ m c' body', s = .whileLoop m c' body' ∧ c'.map f = c ∧ body'.map f = body := by
  cases s with
  | whileLoop m c' body' =>
    cases h
    exact ⟨m, c', body', rfl, rfl, rfl⟩
  | ifElse _ _ _ e => cases e <;> cases h
  | _ => cases h

theorem Program.eq_pair_of_map {p : Program α} {s t : Stmt β} (h : Program.map f p = [s, t]) :
    ∃ s' t', p = [s', t'] ∧ s'.map f = s ∧ t'.map f = t := by
  match p, h with
  | [s', t'], h =>
    cases h
    exact ⟨s', t', rfl, rfl, rfl⟩

namespace ForLoop

theorem Tests.of_map {c : Option (Expr β)} {place : β} {test : Expr α}
    (h : test.map f = c.getD (.literal place (.bool true))) :
    ∃ c', Tests c' test ∧ c'.map (Expr.map f) = c := by
  cases c with
  | none =>
    obtain ⟨m, rfl⟩ := Expr.eq_literal_of_map h
    exact ⟨none, .absent, rfl⟩
  | some c => exact ⟨some test, .present, congrArg some h⟩

theorem Repeats.of_map {body : Stmt β} {increment : Option (Expr β)} {round : Stmt α}
    (h : round.map f = body.followedBy increment) :
    ∃ body' increment', Repeats body' increment' round ∧ body'.map f = body ∧
      increment'.map (Expr.map f) = increment := by
  cases increment with
  | none => exact ⟨round, none, .plain, h, rfl⟩
  | some e =>
    obtain ⟨m, stmts, rfl, hstmts⟩ := Stmt.eq_block_of_map h
    obtain ⟨body', last, rfl, hbody, hlast⟩ := Program.eq_pair_of_map hstmts
    obtain ⟨m', e', rfl, he⟩ := Stmt.eq_expression_of_map hlast
    exact ⟨body', some e', .followed, hbody, congrArg some he⟩

/-- Annotations can be changed, and the tree of a loop remains one. -/
theorem Desugars.of_map {l : ForLoop β} {n place : β} {tree : Stmt α}
    (h : tree.map f = .forLoop n l.initializer (l.condition.getD (.literal place (.bool true)))
      l.increment l.body) : ∃ l' : ForLoop α, l'.Desugars tree ∧ l'.map f = l := by
  obtain ⟨first, c, increment, body⟩ := l
  cases first with
  | none =>
    obtain ⟨m, test, round, rfl, htest, hround⟩ := Stmt.eq_whileLoop_of_map h
    obtain ⟨c', hc, rfl⟩ := Tests.of_map htest
    obtain ⟨body', increment', hrepeats, rfl, rfl⟩ := Repeats.of_map hround
    exact ⟨_, .whileLoop hc hrepeats, rfl⟩
  | some s =>
    obtain ⟨m, stmts, rfl, hstmts⟩ := Stmt.eq_block_of_map h
    obtain ⟨s', loop, rfl, rfl, hloop⟩ := Program.eq_pair_of_map hstmts
    obtain ⟨m', test, round, rfl, htest, hround⟩ := Stmt.eq_whileLoop_of_map hloop
    obtain ⟨c', hc, rfl⟩ := Tests.of_map htest
    obtain ⟨body', increment', hrepeats, rfl, rfl⟩ := Repeats.of_map hround
    exact ⟨_, .block hc hrepeats, rfl⟩

theorem getD_condition (f : α → β) (l : ForLoop α) (place : α) :
    (l.condition.getD (.literal place (.bool true))).map f =
      (l.map f).condition.getD (.literal (f place) (.bool true)) := by
  unfold map
  cases l.condition <;> rfl

end ForLoop

theorem Stmt.plain_map {s : Stmt α} : (s.map f).Plain ↔ s.Plain :=
  and_congr (by rw [s.declared?_map f]) (s.scoped_map f)

end Map

end Lox
