import Lox.Source.Location

/-! What can go wrong while a program runs, and how it is reported. -/

namespace Lox

inductive FaultKind where
  | undefinedVariable | unsupportedOperator | divisionByZero | arityMismatch | notCallable
  deriving DecidableEq, Repr

inductive Fault where
  | undefinedVariable (name : Text)
  /-- The operator between the types of its operands. -/
  | unsupportedOperator (description : Text)
  | divisionByZero
  | arityMismatch (callee : Text) (expected received : Nat)
  /-- The type and the text of what was called. -/
  | notCallable (description : Text)
  /-- A fault of some kind in the words of the host that raises it. -/
  | worded (kind : FaultKind) (message : Text)
  deriving DecidableEq, Repr

namespace Fault

def kind : Fault → FaultKind
  | undefinedVariable _ => .undefinedVariable
  | unsupportedOperator _ => .unsupportedOperator
  | divisionByZero => .divisionByZero
  | arityMismatch .. => .arityMismatch
  | notCallable _ => .notCallable
  | worded kind _ => kind

def message : Fault → Text
  | undefinedVariable x => "Undefined variable '" ++ x ++ "'."
  | unsupportedOperator description => "Unsupported operator: " ++ description ++ "."
  | divisionByZero => "Division by zero."
  | arityMismatch callee expected received =>
    let detail : Text := if received < expected then "too few arguments" else "too many arguments"
    "Expected " ++ Text.ofNat expected ++ " arguments but got " ++ Text.ofNat received
      ++ " in call to '" ++ callee ++ "' (" ++ detail ++ ")."
  | notCallable description => "Can only call functions, got " ++ description ++ "."
  | worded _ message => message

end Fault

/-- A fault and where it arose, if that is known. -/
structure RuntimeError where
  fault : Fault
  location : Option Location
  deriving DecidableEq

namespace RuntimeError

/-- What a lookup of a name found, or the error that it found nothing. -/
def orUndefined {α : Type} (name : Text) (location : Option Location) :
    Option α → Except RuntimeError α
  | some a => .ok a
  | none => .error ⟨.undefinedVariable name, location⟩

/-- Where an error arose, as its message says it. -/
def place (location : Option Location) : Text :=
  match location with
  | none => []
  | some l =>
    " [line " ++ Location.coordinate l.line ++ ", col " ++ Location.coordinate l.column ++ "]"

def message (e : RuntimeError) : Text :=
  "RuntimeError" ++ place e.location ++ ": " ++ e.fault.message

end RuntimeError

end Lox
