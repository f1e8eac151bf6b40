import Lox.Source.Token

/-! Whether a text leaves braces, parentheses or a string open, so that more of it is to come. -/

namespace Lox.Delimiters

open Text

/-- What the next unit is part of. -/
inductive Mode where
  | code | string | comment
  deriving DecidableEq, Repr

/-- How many more delimiters of a kind were opened than closed. -/
structure Balance where
  braces : Int
  parens : Int
  deriving DecidableEq, Repr

def Balance.zero : Balance := ⟨0, 0⟩

def Balance.count (b : Balance) (u : CodeUnit) : Balance :=
  if u = unit '\x7b' then { b with braces := b.braces + 1 }
  else if u = unit '\x7d' then { b with braces := b.braces - 1 }
  else if u = unit '(' then { b with parens := b.parens + 1 }
  else if u = unit ')' then { b with parens := b.parens - 1 }
  else b

/-- What the unit after `u` is part of. -/
def Mode.after (mode : Mode) (u : CodeUnit) (rest : Text) : Mode :=
  match mode with
  | .string => if u = doubleQuote then .code else .string
  | .comment => if u = newline then .code else .comment
  | .code =>
    if u = doubleQuote then .string
    else if u = unit '/' && rest.head? = some (unit '/') then .comment
    else .code

/-- Whether something is open after a text that starts in the given mode. -/
def openAfter (mode : Mode) (b : Balance) : Text → Bool
  | [] => mode = .string || 0 < b.braces || 0 < b.parens
  | u :: rest =>
    openAfter (mode.after u rest) (if mode = .code then b.count u else b) rest

/-- Strings and comments hide delimiters, and an open string waits for its end. -/
def unclosed (t : Text) : Bool := openAfter .code .zero t

end Lox.Delimiters
