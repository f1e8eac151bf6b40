import Lox.Tree.Basic

/-! What can be wrong with the names of a program, and how it is reported. -/

namespace Lox

inductive ScopeFault where
  | redeclared (name : Name)
  | duplicateParameter (param function : Name)
  | topLevelReturn
  | undefined (name : Name)
  /-- A fault in the words of whoever reports it. -/
  | worded (message : Text)
  deriving DecidableEq, Repr

def ScopeFault.message : ScopeFault → Text
  | redeclared x => "Already a variable named '" ++ x ++ "' in this scope."
  | duplicateParameter p f => "Duplicate parameter '" ++ p ++ "' in function '" ++ f ++ "'."
  | topLevelReturn => "Can't return from top-level code."
  | undefined x => "Undefined variable '" ++ x ++ "'."
  | worded message => message

/-- A fault and where it is. -/
structure Diagnostic where
  fault : ScopeFault
  location : Location
  deriving DecidableEq

namespace Diagnostic

def line (d : Diagnostic) : Text :=
  "ERROR [" ++ Location.coordinate d.location.line ++ ":"
    ++ Location.coordinate d.location.column ++ "] " ++ d.fault.message

/-- One line each, by line and then by column; those at one place stay in order. -/
def listing (ds : List Diagnostic) : Text :=
  Text.join [Text.newline]
    ((ds.mergeSort fun a b => a.location.notAfter b.location).map line)

end Diagnostic

end Lox
