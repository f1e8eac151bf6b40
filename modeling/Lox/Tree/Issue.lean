import Lox.Text

/-! What can be wrong with the JSON form of a tree, and checks that find everything that is. -/

namespace Lox

open Text

/-- How a JSON value differs from what its place in a tree asks for. -/
inductive Mismatch where
  | missing
  | otherKind (expected received : Text)
  /-- A node whose type is none of the given ones. -/
  | unknownType (types : List Text)
  /-- A text that is none of the given ones. -/
  | unknownChoice (choices : List Text) (received : Text)
  | notIdentifier
  | notLiteral
  | notInteger
  | negative
  /-- A mismatch in the words of whoever reports it. -/
  | worded (message : Text)
  deriving DecidableEq, Repr

def alternatives (choices : List Text) : Text :=
  join " | " (choices.map fun c => "'" ++ c ++ "'")

def Mismatch.message : Mismatch → Text
  | missing => "Required"
  | otherKind expected received => "Expected " ++ expected ++ ", received " ++ received
  | unknownType types => "Invalid discriminator value. Expected " ++ alternatives types
  | unknownChoice choices received =>
    "Invalid enum value. Expected " ++ alternatives choices ++ ", received '" ++ received ++ "'"
  | notIdentifier => "Expected an identifier"
  | notLiteral => "Invalid input"
  | notInteger => "Expected integer, received float"
  | negative => "Number must be greater than or equal to 0"
  | worded message => message

/-- A mismatch and the keys that lead to it, joined by points. -/
structure Issue where
  path : Text
  mismatch : Mismatch
  deriving DecidableEq, Repr

namespace Issue

/-- The path of the value under `key` of the value at `path`. -/
def pathTo (path key : Text) : Text := if path.isEmpty then key else path ++ "." ++ key

/-- An issue as messages list it. -/
def line (i : Issue) : Text :=
  let path : Text := if i.path.isEmpty then "<root>" else i.path
  path ++ ": " ++ i.mismatch.message

/-- All issues of a tree in one message. -/
def listing (issues : List Issue) : Text := "JsonAstError: " ++ join "; " (issues.map line)

end Issue

/-- What was read, or everything that is wrong with it. -/
inductive Checked (α : Type) where
  | ok (value : α)
  | wrong (first : Issue) (rest : List Issue)

namespace Checked

variable {α β : Type}

def fail (path : Text) (mismatch : Mismatch) : Checked α := .wrong ⟨path, mismatch⟩ []

def map (f : α → β) : Checked α → Checked β
  | ok a => ok (f a)
  | wrong first rest => wrong first rest

/-- Both parts are checked, whatever comes out for the first. -/
def apply : Checked (α → β) → Checked α → Checked β
  | ok f, x => x.map f
  | wrong first rest, ok _ => wrong first rest
  | wrong first rest, wrong first' rest' => wrong first (rest ++ first' :: rest')

instance : Applicative Checked where
  pure := ok
  map := map
  seq f x := apply f (x ())

end Checked

end Lox
