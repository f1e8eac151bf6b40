import Lox.Tree.Basic

/-! Local scopes as they are known before a program runs: which names each of them has, and which
of those may be used already. -/

namespace Lox

inductive NameState where
  /-- Known, but its initializer is not behind us yet. -/
  | declared
  | defined
  deriving DecidableEq, Repr

/-- One local scope. The latest entry for a name counts. -/
structure Scope where
  entries : List (Name × NameState)
  /-- Function names that are defined ahead of a declaration still to come. -/
  hoisted : List Name

namespace Scope

def empty : Scope := ⟨[], []⟩

def state? (x : Name) (s : Scope) : Option NameState := s.entries.lookup x

/-- Defines a function name before its declaration, unless the scope has the name. -/
def hoist (x : Name) (s : Scope) : Scope :=
  if (s.state? x).isSome then s
  else ⟨(x, .defined) :: s.entries, x :: s.hoisted⟩

/-- Declares a name, and whether that is allowed: the scope must not have it yet, or have it only
as the hoisted name of this very declaration. -/
def declare (x : Name) (s : Scope) : Bool × Scope :=
  if x ∈ s.hoisted then (true, { s with hoisted := s.hoisted.erase x })
  else if (s.state? x).isSome then (false, s)
  else (true, { s with entries := (x, .declared) :: s.entries })

/-- From here on the name may be used. -/
def define (x : Name) (s : Scope) : Scope := { s with entries := (x, .defined) :: s.entries }

/-- How many scopes, from the innermost outwards, stand before the first that defines a name. -/
def depth? (x : Name) : List Scope → Option Nat
  | [] => none
  | s :: outer =>
    if s.state? x = some .defined then some 0 else (depth? x outer).map (· + 1)

@[simp] theorem state?_empty (x : Name) : empty.state? x = none := rfl

theorem state?_define (s : Scope) (x y : Name) :
    (s.define x).state? y = if y = x then some .defined else s.state? y := by
  by_cases h : y = x
  · simp [define, state?, h]
  · have : (y == x) = false := by simpa using h
    simp [define, state?, List.lookup_cons, this, h]

/-- A scope accepts a name that it does not have, and one that it has only ahead of its
declaration. -/
theorem declare_fst (s : Scope) (x : Name) :
    (s.declare x).1 = (x ∈ s.hoisted || (s.state? x).isNone) := by
  rw [declare]
  split
  · simp [*]
  · split <;> simp_all

end Scope

/-- Scopes inside each other: every scope is known by a number and comes with the numbers of the
scopes around it, innermost first. -/
structure ScopeForest where
  nodes : List (Scope × List Nat)

namespace ScopeForest

/-- One scope with nothing around it. -/
def single : ScopeForest := ⟨[(.empty, [])]⟩

def scope (f : ScopeForest) (i : Nat) : Scope := (f.nodes[i]?.map (·.1)).getD .empty

/-- The numbers of a scope and of those around it. -/
def path (f : ScopeForest) (i : Nat) : List Nat := i :: (f.nodes[i]?.map (·.2)).getD []

/-- Adds a scope inside another one, under the next number. -/
def child (f : ScopeForest) (i : Nat) : Nat × ScopeForest :=
  (f.nodes.length, ⟨f.nodes ++ [(.empty, f.path i)]⟩)

def update (f : ScopeForest) (i : Nat) (change : Scope → Scope) : ScopeForest :=
  ⟨f.nodes.modify i fun (s, outer) => (change s, outer)⟩

def declare (f : ScopeForest) (i : Nat) (x : Name) : Bool × ScopeForest :=
  (((f.scope i).declare x).1, f.update i fun s => (s.declare x).2)

def define (f : ScopeForest) (i : Nat) (x : Name) : ScopeForest := f.update i (·.define x)

def hoist (f : ScopeForest) (i : Nat) (x : Name) : ScopeForest := f.update i (·.hoist x)

/-- The depth at which a name is found from a scope outwards. -/
def depth? (f : ScopeForest) (i : Nat) (x : Name) : Option Nat :=
  Scope.depth? x ((f.path i).map f.scope)

end ScopeForest

end Lox
