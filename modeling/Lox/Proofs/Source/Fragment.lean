import Lox.Source.Scan

/-! Fragments: a source text cut into tokens, gaps and faulty pieces. Every fragment knows where it
starts, so tokens and scanning errors are read off the list of fragments. -/

namespace Lox

open Text

/-- What a fragment of a source text is. -/
inductive FragmentKind where
  | token (kind : TokenKind)
  | space
  | comment
  /-- A unit that starts no token. -/
  | unexpected (u : CodeUnit)
  /-- A quote that no other quote follows, and all after it. -/
  | unterminated
  deriving DecidableEq

/-- What a lexeme of a kind stands for. -/
def TokenKind.literal (kind : TokenKind) (lexeme : Text) : TokenLiteral :=
  match kind with
  | .number => .number (Number.ofLexeme lexeme)
  | .string => .string (lexeme.drop 1).dropLast
  | _ => .none

/-- The token that a lexeme is at a place. -/
def Token.spelled (kind : TokenKind) (lexeme : Text) (position : Position) : Token :=
  ⟨kind, lexeme, kind.literal lexeme, position⟩

/-- The value of a number token. -/
def Token.numberValue (t : Token) : Float := Number.ofLexeme t.lexeme

structure Fragment where
  kind : FragmentKind
  text : Text
  position : Position

namespace Fragment

/-- The white space between tokens. -/
def isSpace (u : CodeUnit) : Bool :=
  u == unit ' ' || u == unit '\r' || u == unit '\t' || u == newline

/-- How far a number goes on: digits, and a point if a digit follows it. -/
def numberTail (rest : Text) : Nat :=
  let whole := (rest.takeWhile isDigit).length
  match rest.drop whole with
  | point :: digit :: more =>
    if point = unit '.' && isDigit digit then whole + 2 + (more.takeWhile isDigit).length
    else whole
  | _ => whole

/-- What a text that starts with `u` starts with, and how many of the units after `u` belong
to it. -/
def first (u : CodeUnit) (rest : Text) : FragmentKind × Nat :=
  match UnitClass.of u with
  | .sign kind => (.token kind, 0)
  | .extendableSign alone extended =>
    if rest.head? = some (unit '=') then (.token extended, 1) else (.token alone, 0)
  | .slash =>
    if rest.head? = some (unit '/') then (.comment, (rest.takeWhile (· ≠ newline)).length)
    else (.token .slash, 0)
  | .space | .newline => (.space, 0)
  | .doubleQuote =>
    let body := (rest.takeWhile (· ≠ doubleQuote)).length
    if (rest.drop body).isEmpty then (.unterminated, body) else (.token .string, body + 1)
  | .digit => (.token .number, numberTail rest)
  | .letter =>
    let tail := rest.takeWhile isWordUnit
    (.token (.ofWord (u :: tail)), tail.length)
  | .other => (.unexpected u, 0)

/-- The fragments of a text whose first unit stands at `p`. -/
def allFrom (p : Position) : Text → List Fragment
  | [] => []
  | u :: rest =>
    let kind := (first u rest).1
    let length := (first u rest).2
    let text := u :: rest.take length
    ⟨kind, text, p⟩ :: allFrom (p.after text) (rest.drop length)
  termination_by t => t.length

/-- The fragments of a source text, in order. -/
def all (source : Text) : List Fragment := allFrom .start source

def token? (f : Fragment) : Option Token :=
  match f.kind with
  | .token kind => some (.spelled kind f.text f.position)
  | _ => none

def error? (f : Fragment) : Option SourceError :=
  match f.kind with
  | .unexpected u => some ⟨.unexpectedUnit u, f.position⟩
  | .unterminated => some ⟨.unterminatedString, f.position⟩
  | _ => none

end Fragment

end Lox
