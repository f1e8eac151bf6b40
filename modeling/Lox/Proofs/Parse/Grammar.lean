import Lox.Parse.Program
import Lox.Proofs.Tree.Loop

/-! The grammar of programs. A phrase is a nonterminal together with the tree it stands for, and a
derivation says which tokens are a phrase, one rule for each alternative of the grammar. -/

namespace Lox.Grammar

/-- The levels of infix operators, those that bind loosest first. -/
inductive Level where
  | logicOr | logicAnd | equality | comparison | term | factor
  deriving DecidableEq, Repr

namespace Level

/-- The level of the operands; below the last one stand the unary operators. -/
def tighter : Level → Option Level
  | logicOr => some logicAnd
  | logicAnd => some equality
  | equality => some comparison
  | comparison => some term
  | term => some factor
  | factor => none

/-- The operator that a token is between two operands of a level. -/
def operator? : Level → TokenKind → Option InfixOp
  | logicOr, .orWord => some (.logical .or)
  | logicAnd, .andWord => some (.logical .and)
  | equality, .bangEqual => some (.binary .notEqual)
  | equality, .equalEqual => some (.binary .equal)
  | comparison, .greater => some (.binary .greater)
  | comparison, .greaterEqual => some (.binary .greaterEqual)
  | comparison, .less => some (.binary .less)
  | comparison, .lessEqual => some (.binary .lessEqual)
  | term, .minus => some (.binary .subtract)
  | term, .plus => some (.binary .add)
  | factor, .slash => some (.binary .divide)
  | factor, .star => some (.binary .multiply)
  | factor, .percent => some (.binary .remainder)
  | _, _ => none

end Level

def unaryOperator? : TokenKind → Option UnaryOp
  | .bang => some .not
  | .minus => some .negate
  | _ => none

inductive Phrase where
  | expression (e : Expr Position)
  /-- Operands of a level with the operators between them; without a level, what unary operators
  apply to. -/
  | operation (level : Option Level) (e : Expr Position)
  /-- The operators of a level that follow `left`, with their right operands; together with `left`
  they are `e`. -/
  | operators (level : Level) (left e : Expr Position)
  /-- The argument lists that follow `callee`; together with `callee` they are `e`. -/
  | calls (callee e : Expr Position)
  | primary (e : Expr Position)
  | arguments (es : List (Expr Position))
  /-- One argument or more. -/
  | argumentList (es : List (Expr Position))
  | parameters (xs : List Name)
  /-- One parameter or more. -/
  | parameterList (xs : List Name)
  /-- An expression that may be absent. -/
  | optional (e : Option (Expr Position))
  | initializer (e : Option (Expr Position))
  | varDecl (s : Stmt Position)
  | exprStmt (s : Stmt Position)
  /-- The first clause of a `for` loop. -/
  | forClause (s : Option (Stmt Position))
  /-- A statement; it is open if it ends in an `if` without `else`. -/
  | statement (isOpen : Bool) (s : Stmt Position)
  | declaration (s : Stmt Position)
  | declarations (p : Program Position)

/-- The derivations of the grammar. Where an `else` may belong to several `if`s there is one for
each of them; with `nearest`, only the one in which it belongs to the nearest. -/
inductive Derives (nearest : Bool) : Phrase → List Token → Prop where
  -- program, declaration
  | noDeclarations : Derives nearest (.declarations []) []
  | moreDeclarations {s p ts us} : Derives nearest (.declaration s) ts →
      Derives nearest (.declarations p) us → Derives nearest (.declarations (s :: p)) (ts ++ us)
  | function {word name lparen xs ts rparen lbrace body us rbrace} : word.kind = .funWord →
      name.kind = .identifier → lparen.kind = .leftParen → Derives nearest (.parameters xs) ts →
      rparen.kind = .rightParen → lbrace.kind = .leftBrace →
      Derives nearest (.declarations body) us → rbrace.kind = .rightBrace →
      Derives nearest (.declaration (.funDecl word.position name.lexeme xs body))
        (word :: name :: lparen :: (ts ++ rparen :: lbrace :: (us ++ [rbrace])))
  | variableDeclaration {s ts} : Derives nearest (.varDecl s) ts →
      Derives nearest (.declaration s) ts
  | statement {isOpen s ts} : Derives nearest (.statement isOpen s) ts →
      Derives nearest (.declaration s) ts
  | noParameters : Derives nearest (.parameters []) []
  | someParameters {xs ts} : xs.length ≤ argumentLimit → Derives nearest (.parameterList xs) ts →
      Derives nearest (.parameters xs) ts
  | lastParameter {name} : name.kind = .identifier →
      Derives nearest (.parameterList [name.lexeme]) [name]
  | moreParameters {name comma xs ts} : name.kind = .identifier → comma.kind = .comma →
      Derives nearest (.parameterList xs) ts →
      Derives nearest (.parameterList (name.lexeme :: xs)) (name :: comma :: ts)
  | varDecl {word name e ts semicolon} : word.kind = .varWord → name.kind = .identifier →
      Derives nearest (.initializer e) ts → semicolon.kind = .semicolon →
      Derives nearest (.varDecl (.varDecl word.position name.lexeme e))
        (word :: name :: (ts ++ [semicolon]))
  | noInitializer : Derives nearest (.initializer none) []
  | someInitializer {sign e ts} : sign.kind = .equal → Derives nearest (.expression e) ts →
      Derives nearest (.initializer (some e)) (sign :: ts)
  -- statement
  | exprStmt {e t ts semicolon} : Derives nearest (.expression e) (t :: ts) →
      semicolon.kind = .semicolon →
      Derives nearest (.exprStmt (.expression t.position e)) (t :: (ts ++ [semicolon]))
  | expressionStatement {s ts} : Derives nearest (.exprStmt s) ts →
      Derives nearest (.statement false s) ts
  | print {word e ts semicolon} : word.kind = .printWord → Derives nearest (.expression e) ts →
      semicolon.kind = .semicolon →
      Derives nearest (.statement false (.print word.position e)) (word :: (ts ++ [semicolon]))
  | returnStmt {word e ts semicolon} : word.kind = .returnWord → Derives nearest (.optional e) ts →
      semicolon.kind = .semicolon →
      Derives nearest (.statement false (.returnStmt word.position e))
        (word :: (ts ++ [semicolon]))
  | block {lbrace p ts rbrace} : lbrace.kind = .leftBrace → Derives nearest (.declarations p) ts →
      rbrace.kind = .rightBrace →
      Derives nearest (.statement false (.block lbrace.position p)) (lbrace :: (ts ++ [rbrace]))
  | ifOnly {word lparen c ts rparen isOpen s us} : word.kind = .ifWord →
      lparen.kind = .leftParen → Derives nearest (.expression c) ts → rparen.kind = .rightParen →
      Derives nearest (.statement isOpen s) us →
      Derives nearest (.statement true (.ifElse word.position c s none))
        (word :: lparen :: (ts ++ rparen :: us))
  | ifElse {word lparen c ts rparen isOpen s us other isOpen' s' vs} : word.kind = .ifWord →
      lparen.kind = .leftParen → Derives nearest (.expression c) ts → rparen.kind = .rightParen →
      Derives nearest (.statement isOpen s) us → (nearest → isOpen = false) →
      other.kind = .elseWord → Derives nearest (.statement isOpen' s') vs →
      Derives nearest (.statement isOpen' (.ifElse word.position c s (some s')))
        (word :: lparen :: (ts ++ rparen :: (us ++ other :: vs)))
  | whileLoop {word lparen c ts rparen isOpen s us} : word.kind = .whileWord →
      lparen.kind = .leftParen → Derives nearest (.expression c) ts → rparen.kind = .rightParen →
      Derives nearest (.statement isOpen s) us →
      Derives nearest (.statement isOpen (.whileLoop word.position c s))
        (word :: lparen :: (ts ++ rparen :: us))
  | forLoop {word lparen first ts c us semicolon increment vs rparen isOpen s ws} :
      word.kind = .forWord → lparen.kind = .leftParen → Derives nearest (.forClause first) ts →
      Derives nearest (.optional c) us → semicolon.kind = .semicolon →
      Derives nearest (.optional increment) vs → rparen.kind = .rightParen →
      Derives nearest (.statement isOpen s) ws →
      Derives nearest
        (.statement isOpen (.forLoop word.position first
          (c.getD (.literal semicolon.position (.bool true))) increment s))
        (word :: lparen :: (ts ++ (us ++ semicolon :: (vs ++ rparen :: ws))))
  | noClause {semicolon} : semicolon.kind = .semicolon →
      Derives nearest (.forClause none) [semicolon]
  | varClause {s ts} : Derives nearest (.varDecl s) ts → Derives nearest (.forClause (some s)) ts
  | exprClause {s ts} : Derives nearest (.exprStmt s) ts → Derives nearest (.forClause (some s)) ts
  | absent : Derives nearest (.optional none) []
  | present {e ts} : Derives nearest (.expression e) ts → Derives nearest (.optional (some e)) ts
  -- expression
  | assignment {name sign e ts} : name.kind = .identifier → sign.kind = .equal →
      Derives nearest (.expression e) ts →
      Derives nearest (.expression (.assign name.position name.lexeme e)) (name :: sign :: ts)
  | operation {e ts} : Derives nearest (.operation (some .logicOr) e) ts →
      Derives nearest (.expression e) ts
  | level {l : Level} {left e ts us} : Derives nearest (.operation l.tighter left) ts →
      Derives nearest (.operators l left e) us → Derives nearest (.operation (some l) e) (ts ++ us)
  | noOperator {l left} : Derives nearest (.operators l left left) []
  | moreOperators {l : Level} {left op sign right ts e us} : l.operator? sign.kind = some op →
      Derives nearest (.operation l.tighter right) ts →
      Derives nearest (.operators l (op.build sign.position left right) e) us →
      Derives nearest (.operators l left e) (sign :: (ts ++ us))
  | unary {sign op e ts} : unaryOperator? sign.kind = some op →
      Derives nearest (.operation none e) ts →
      Derives nearest (.operation none (.unary sign.position op e)) (sign :: ts)
  | call {callee e ts us} : Derives nearest (.primary callee) ts →
      Derives nearest (.calls callee e) us → Derives nearest (.operation none e) (ts ++ us)
  | noCall {callee} : Derives nearest (.calls callee callee) []
  | moreCalls {callee lparen es ts rparen e us} : lparen.kind = .leftParen →
      Derives nearest (.arguments es) ts → rparen.kind = .rightParen →
      Derives nearest (.calls (.call lparen.position callee es) e) us →
      Derives nearest (.calls callee e) (lparen :: (ts ++ rparen :: us))
  | noArguments : Derives nearest (.arguments []) []
  | someArguments {es ts} : es.length ≤ argumentLimit → Derives nearest (.argumentList es) ts →
      Derives nearest (.arguments es) ts
  | lastArgument {e ts} : Derives nearest (.expression e) ts →
      Derives nearest (.argumentList [e]) ts
  | moreArguments {e ts comma es us} : Derives nearest (.expression e) ts → comma.kind = .comma →
      Derives nearest (.argumentList es) us →
      Derives nearest (.argumentList (e :: es)) (ts ++ comma :: us)
  -- what the token stands for is its own affair
  | number {t} : t.kind = .number →
      Derives nearest (.primary (.literal t.position t.literal.value)) [t]
  | string {t} : t.kind = .string →
      Derives nearest (.primary (.literal t.position t.literal.value)) [t]
  | trueWord {t} : t.kind = .trueWord →
      Derives nearest (.primary (.literal t.position (.bool true))) [t]
  | falseWord {t} : t.kind = .falseWord →
      Derives nearest (.primary (.literal t.position (.bool false))) [t]
  | nilWord {t} : t.kind = .nilWord → Derives nearest (.primary (.literal t.position .nil)) [t]
  | grouping {lparen e ts rparen} : lparen.kind = .leftParen → Derives nearest (.expression e) ts →
      rparen.kind = .rightParen →
      Derives nearest (.primary (.grouping lparen.position e)) (lparen :: (ts ++ [rparen]))
  | identifier {t} : t.kind = .identifier →
      Derives nearest (.primary (.reference t.position t.lexeme)) [t]

/-- What an expression can start with. -/
def expressionStarts : List TokenKind :=
  [.number, .string, .trueWord, .falseWord, .nilWord, .leftParen, .identifier, .bang, .minus]

def statementStarts : List TokenKind :=
  [.printWord, .leftBrace, .ifWord, .whileWord, .forWord, .returnWord] ++ expressionStarts

def Phrase.starts? : Phrase → Option (List TokenKind)
  | .expression _ | .operation _ _ | .argumentList _ | .exprStmt _ => some expressionStarts
  | .primary _ => some (expressionStarts.take 7)
  | .statement _ _ => some statementStarts
  | .varDecl _ => some [.varWord]
  | .declaration _ => some (.funWord :: .varWord :: statementStarts)
  | .parameterList _ => some [.identifier]
  | _ => none

theorem Derives.start {nearest : Bool} {ph : Phrase} {ts : List Token} (h : Derives nearest ph ts)
    {kinds : List TokenKind} (hk : ph.starts? = some kinds) :
    ∃ t, ts.head? = some t ∧ t.kind ∈ kinds := by
  induction h generalizing kinds with
  | function h | varDecl h | print h | returnStmt h | block h | ifOnly h | ifElse h | whileLoop h
  | forLoop h | lastParameter h | moreParameters h | assignment h | number h | string h
  | trueWord h | falseWord h | nilWord h | grouping h | identifier h =>
    cases hk
    exact ⟨_, rfl, by rw [h]; decide⟩
  | @unary sign _ _ _ h =>
    cases hk
    refine ⟨sign, rfl, ?_⟩
    cases hs : sign.kind <;> rw [hs] at h <;> first | decide | cases h
  | exprStmt _ _ ih | operation _ ih | lastArgument _ ih =>
    cases hk
    exact ih rfl
  | moreArguments _ _ _ ih | level _ _ ih | call _ _ ih =>
    cases hk
    obtain ⟨t, ht, hmem⟩ := ih rfl
    refine ⟨t, by rw [List.head?_append, ht]; rfl, ?_⟩
    first | exact hmem | exact List.mem_of_mem_take hmem
  | variableDeclaration _ ih | statement _ ih | expressionStatement _ ih =>
    cases hk
    obtain ⟨t, ht, hmem⟩ := ih rfl
    exact ⟨t, ht, by revert hmem; generalize t.kind = k; revert k; decide⟩
  | _ => cases hk

theorem Derives.length_pos {nearest : Bool} {ph : Phrase} {ts : List Token}
    (h : Derives nearest ph ts) {kinds : List TokenKind} (hk : ph.starts? = some kinds) :
    0 < ts.length := by
  obtain ⟨t, ht, -⟩ := h.start hk
  exact List.length_pos_iff.mpr (by rintro rfl; simp at ht)

/-- The tokens are a program in the reading where every `else` belongs to the nearest `if`. -/
def IsNearestProgram (p : Program Position) (tokens : List Token) : Prop :=
  Derives true (.declarations p) tokens

end Lox.Grammar
