import Lox.Run.Fault
import Lox.Run.Store

/-! Steps of a running program. A step changes the state and ends with a result or with an error,
unless the work it was allowed does not suffice. -/

namespace Lox

structure State where
  store : Store
  /-- The lines printed so far. -/
  output : Array Text
  /-- The number of the next function. -/
  nextFunction : Nat
  /-- How many calls of native functions there have been. -/
  calls : Nat

namespace State

def empty : State := ⟨.empty, #[], 0, 0⟩

def counted (s : State) : State := { s with calls := s.calls + 1 }

/-- For the next program: nothing is printed, and no native function has been called. -/
def resumed (s : State) : State := { s with output := #[], calls := 0 }

end State

/-- How a step ends. An error undoes nothing. -/
inductive Outcome (α : Type) where
  | done (result : α) (state : State)
  | failed (error : RuntimeError) (state : State)
  /-- The step needs more work than it was allowed. -/
  | exhausted

def Eval (α : Type) : Type := State → Outcome α

namespace Eval

variable {α β : Type}

@[inline] protected def pure (a : α) : Eval α := fun s => .done a s

@[inline] protected def bind (m : Eval α) (f : α → Eval β) : Eval β := fun s =>
  match m s with
  | .done a s' => f a s'
  | .failed e s' => .failed e s'
  | .exhausted => .exhausted

instance : Monad Eval where
  pure := Eval.pure
  bind := Eval.bind

theorem bind_of_done {m : Eval α} {a : α} {s t : State} (h : m s = .done a t) (f : α → Eval β) :
    (m >>= f) s = f a t := by
  show Eval.bind m f s = f a t
  rw [Eval.bind, h]

theorem bind_of_failed {m : Eval α} {e : RuntimeError} {s t : State} (h : m s = .failed e t)
    (f : α → Eval β) : (m >>= f) s = .failed e t := by
  show Eval.bind m f s = .failed e t
  rw [Eval.bind, h]

theorem bind_of_exhausted {m : Eval α} {s : State} (h : m s = .exhausted) (f : α → Eval β) :
    (m >>= f) s = .exhausted := by
  show Eval.bind m f s = .exhausted
  rw [Eval.bind, h]

@[simp] theorem pure_apply (a : α) (s : State) : (pure a : Eval α) s = .done a s := rfl

def exhausted : Eval α := fun _ => .exhausted

def fail (fault : Fault) (location : Option Location) : Eval α := fun s =>
  .failed ⟨fault, location⟩ s

/-- A result, or an error that leaves the state as it is. -/
def ofExcept : Except RuntimeError α → Eval α
  | .ok a => Eval.pure a
  | .error e => fun s => .failed e s

def print (line : Text) : Eval Unit := fun s =>
  .done () { s with output := s.output.push line }

def openFrame (env : Environment) : Eval Environment := fun s =>
  .done (s.store.frames.size :: env) { s with store := (s.store.child env).2 }

def define (env : Environment) (x : Name) (v : Value) : Eval Unit := fun s =>
  .done () { s with store := s.store.define env x v }

def defineAll (env : Environment) : List Name → List Value → Eval Unit
  | x :: xs, v :: vs => do
    define env x v
    defineAll env xs vs
  | _, _ => Eval.pure ()

/-- What the store holds, by a question that changes nothing. -/
@[inline] def ask (question : Store → α) : Eval α := fun s => .done (question s.store) s

def setIn (i : Nat) (x : Name) (v : Value) : Eval Unit := fun s =>
  .done () { s with store := s.store.setIn i x v }

/-- Counts a call of a native function, and gives the number of those before. -/
def countCall : Eval Nat := fun s => .done s.calls s.counted

/-- Makes a function with a number of its own. -/
def newFunction (name : Name) (params : List Name) (body : Program Node) (env : Environment) :
    Eval Value := fun s =>
  .done (.function ⟨s.nextFunction, name, params, body, env⟩)
    { s with nextFunction := s.nextFunction + 1 }

end Eval

end Lox
