import Lox.Number.Numeral
import Lox.Source.Location

/-! Tokens: the words, literals and signs of a program, each with its text and its place. -/

namespace Lox

open Text

inductive TokenKind where
  | leftParen | rightParen | leftBrace | rightBrace
  | comma | dot | minus | plus | semicolon | slash | star | percent
  | bang | bangEqual | equal | equalEqual
  | greater | greaterEqual | less | lessEqual
  | identifier | string | number
  | andWord | classWord | elseWord | falseWord | forWord | funWord | ifWord | nilWord | orWord
  | printWord | returnWord | superWord | thisWord | trueWord | varWord | whileWord
  deriving DecidableEq, Repr

namespace TokenKind

/-- The words that no variable can be named. -/
def keywords : List (Text × TokenKind) :=
  [("and", andWord), ("class", classWord), ("else", elseWord), ("false", falseWord),
    ("for", forWord), ("fun", funWord), ("if", ifWord), ("nil", nilWord), ("or", orWord),
    ("print", printWord), ("return", returnWord), ("super", superWord), ("this", thisWord),
    ("true", trueWord), ("var", varWord), ("while", whileWord)]

/-- A word is a keyword or an identifier. -/
def ofWord (word : Text) : TokenKind := (keywords.lookup word).getD identifier

/-- The signs of one unit that no other unit extends. -/
def signs : List (CodeUnit × TokenKind) :=
  [(unit '(', leftParen), (unit ')', rightParen), (unit '\x7b', leftBrace),
    (unit '\x7d', rightBrace), (unit ',', comma), (unit '.', dot), (unit '-', minus),
    (unit '+', plus), (unit ';', semicolon), (unit '*', star), (unit '%', percent)]

/-- The signs that an equals sign may follow, with their kinds without it and with it. -/
def extendableSigns : List (CodeUnit × TokenKind × TokenKind) :=
  [(unit '!', bang, bangEqual), (unit '=', equal, equalEqual),
    (unit '<', less, lessEqual), (unit '>', greater, greaterEqual)]

end TokenKind

inductive TokenLiteral where
  | none
  | number (value : Float)
  | string (value : Text)
  deriving DecidableEq

structure Token where
  kind : TokenKind
  lexeme : Text
  literal : TokenLiteral
  position : Position
  deriving DecidableEq

end Lox
