import Lox.Number.Written

/-! Places in a source text, and the locations that the nodes of a tree carry. -/

namespace Lox

open Text

/-- A place in a source text; lines and columns count from one. -/
structure Position where
  line : Nat
  column : Nat
  deriving DecidableEq, Repr

namespace Position

def start : Position := ⟨1, 1⟩

/-- The place after a unit that stands at `p`. -/
def advance (p : Position) (u : CodeUnit) : Position :=
  if u = newline then ⟨p.line + 1, 1⟩ else ⟨p.line, p.column + 1⟩

/-- The place after a text that starts at `p`. -/
def after (p : Position) (t : Text) : Position := t.foldl advance p

@[simp] theorem after_nil (p : Position) : p.after [] = p := rfl

@[simp] theorem after_cons (p : Position) (u : CodeUnit) (t : Text) :
    p.after (u :: t) = (p.advance u).after t := rfl

theorem after_append (p : Position) (s t : Text) : p.after (s ++ t) = (p.after s).after t :=
  List.foldl_append

end Position

/-- Where a node says that it comes from. A tree may come from elsewhere than a source text, so
its coordinates are any numbers that such a tree can hold. -/
structure Location where
  line : Float
  column : Float
  deriving DecidableEq

namespace Location

/-- A coordinate that counts lines or columns, up to what a double can count. -/
def counted (n : Nat) : Float := Number.ofNat (min n Number.exactLimit)

def ofPosition (p : Position) : Location := ⟨counted p.line, counted p.column⟩

instance : Coe Position Location := ⟨ofPosition⟩

def unknown : Location := ⟨Number.zero, Number.zero⟩

/-- Not after: by line, then by column. -/
def notAfter (a b : Location) : Bool :=
  a.line < b.line || (a.line == b.line && a.column ≤ b.column)

def coordinate (x : Float) : Text := Number.write .plain x

end Location

end Lox
