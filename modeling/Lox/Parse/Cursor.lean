import Lox.Source.Scan
import Lox.Tree.Supply

/-! The state of a parser: the tokens still to be read, the errors reported so far and what gives
new nodes their notes. A step either reads something or gives up; both leave a state from which
parsing can go on. -/

namespace Lox

structure Cursor (σ : Type) where
  rest : List Token
  /-- The place where the text ends. -/
  stop : Position
  errors : List SourceError
  supply : σ

/-- A step of the parser: what it read, if it did not give up, and the state it leaves. -/
def Parser (σ α : Type) : Type := Cursor σ → Option α × Cursor σ

/-- A step that makes nodes with no more than a place. -/
abbrev Parse (α : Type) : Type := Parser Unit α

namespace Parse

variable {σ ν α β : Type}

instance : Monad (Parser σ) where
  pure a := fun c => (some a, c)
  bind p f := fun c =>
    match p c with
    | (some a, c') => f a c'
    | (none, c') => (none, c')

@[simp] theorem pure_apply (a : α) (c : Cursor σ) : (pure a : Parser σ α) c = (some a, c) := rfl

theorem bind_of_some {p : Parser σ α} {a : α} {c c' : Cursor σ} (h : p c = (some a, c'))
    (f : α → Parser σ β) : (p >>= f) c = f a c' := by
  simp only [bind, h]

theorem bind_of_none {p : Parser σ α} {c c' : Cursor σ} (h : p c = (none, c'))
    (f : α → Parser σ β) : (p >>= f) c = (none, c') := by
  simp only [bind, h]

/-- Gives up without an error; only a step that was allowed no work does this. -/
def stuck : Parser σ α := fun c => (none, c)

def check (kind : TokenKind) : Parser σ Bool := fun c =>
  (some (c.rest.head?.any (·.kind = kind)), c)

def atEnd : Parser σ Bool := fun c => (some c.rest.isEmpty, c)

def place : Parser σ Position := fun c => (some ((c.rest.head?.map (·.position)).getD c.stop), c)

/-- Takes the next token if `select` gives something for its kind. -/
def acceptWith (select : TokenKind → Option α) : Parser σ (Option (α × Token)) := fun c =>
  match c.rest with
  | [] => (some none, c)
  | token :: rest =>
    match select token.kind with
    | some a => (some (some (a, token)), { c with rest := rest })
    | none => (some none, c)

def accept (kind : TokenKind) : Parser σ (Option Token) := do
  let taken ← acceptWith fun k => if k = kind then some () else none
  return taken.map (·.2)

def reportAt (token : Token) (expectation : Expectation) : Parser σ Unit := fun c =>
  let error : SourceError := ⟨.unmet (some token.lexeme) expectation, token.position⟩
  (some (), { c with errors := c.errors ++ [error] })

/-- Reports an expectation that the next token, or the end, did not meet. -/
def report (expectation : Expectation) : Parser σ Unit := fun c =>
  match c.rest with
  | token :: _ => reportAt token expectation c
  | [] => (some (), { c with errors := c.errors ++ [⟨.unmet none expectation, c.stop⟩] })

def refuse (expectation : Expectation) : Parser σ α := do
  report expectation
  stuck

/-- Takes a token of the given kind, and gives up if the next one is of another. -/
def expect (kind : TokenKind) (expectation : Expectation) : Parser σ Token := do
  match ← accept kind with
  | some token => return token
  | none => refuse expectation

def draw [Supply σ Position ν] (p : Position) : Parser σ ν := fun c =>
  let (note, supply) := Supply.draw p c.supply
  (some note, { c with supply := supply })

/-- Makes a note for a new node at the place of another one. -/
def redraw [Supply σ Position ν] (note : ν) : Parser σ ν := draw (Supply.place σ note)

end Parse

namespace TokenKind

/-- The words at which a new statement is likely to start. -/
def startsStatement : TokenKind → Bool
  | classWord | funWord | varWord | forWord | ifWord | whileWord | printWord | returnWord => true
  | _ => false

end TokenKind

/-- Drops tokens up to one after a semicolon or one that is likely to start a statement;
`previous` is the kind of the token before them. -/
def dropToStatement (previous : TokenKind) : List Token → List Token
  | [] => []
  | token :: rest =>
    if previous = .semicolon || token.kind.startsStatement then token :: rest
    else dropToStatement token.kind rest

/-- Where parsing goes on after an error; at least one token is dropped if there is one. -/
def Cursor.resume {σ : Type} (c : Cursor σ) : Cursor σ :=
  match c.rest with
  | [] => c
  | token :: rest => { c with rest := dropToStatement token.kind rest }

/-- Where a step gives up, resumes at the next statement with nothing read. -/
def Parse.recovering {σ α : Type} (p : Parser σ α) : Parser σ (Option α) := fun c =>
  match p c with
  | (some a, c') => (some (some a), c')
  | (none, c') => (some none, c'.resume)

end Lox
