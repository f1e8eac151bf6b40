import Lox.Source.Location

/-! Supplies of notes for new nodes. A node has its key from the moment when it is made, and no key
is given twice, whatever becomes of the node. -/

namespace Lox

/-- A place with a key that no other node has. -/
structure Keyed (π : Type) where
  key : Nat
  location : π
  deriving DecidableEq

/-- A node of a tree that can be resolved and run. -/
abbrev Node := Keyed Location

/-- The key of the first node that is made. -/
def firstKey : Nat := 1

/-- What gives the notes of new nodes. `σ` is what is left of it, and `π` are the places for which
there are notes. -/
class Supply (σ π : Type) (ν : outParam Type) where
  draw : π → σ → ν × σ
  place : ν → π
  place_draw : ∀ p s, place (draw p s).1 = p

variable {π : Type}

/-- Places are notes themselves. -/
instance : Supply Unit π π := ⟨fun p s => (p, s), fun p => p, fun _ _ => rfl⟩

/-- The keys from a number on. -/
instance : Supply Nat π (Keyed π) := ⟨fun p k => (⟨k, p⟩, k + 1), Keyed.location, fun _ _ => rfl⟩

@[simp] theorem Supply.draw_unit (p : π) (s : Unit) : Supply.draw p s = (p, s) := rfl

@[simp] theorem Supply.draw_nat (p : π) (k : Nat) : Supply.draw p k = (⟨k, p⟩, k + 1) := rfl

end Lox
