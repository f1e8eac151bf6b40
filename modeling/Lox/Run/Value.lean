import Lox.Tree.Basic
import Lox.Tree.Supply

/-! Values of a running program. -/

namespace Lox

/-- Where a name is looked up: the numbers of the frames around a piece of code, innermost first. -/
abbrev Environment := List Nat

/-- A function that the host provides. Two of them are the same only if their numbers agree. -/
structure Native where
  id : Nat
  name : Name
  arity : Nat
  deriving DecidableEq, Repr

/-- A function of the program, with the environment in which it was declared. Every execution of a
declaration makes a function with a number of its own. -/
structure Closure where
  id : Nat
  name : Name
  params : List Name
  body : Program Node
  env : Environment

inductive Value where
  | number (value : Float)
  | string (value : Text)
  | bool (value : Bool)
  | nil
  | native (function : Native)
  | function (closure : Closure)

namespace Value

def ofLiteral : Literal → Value
  | .number x => number x
  | .string t => string t
  | .bool b => bool b
  | .nil => nil

/-- Only `nil` and `false` are not. -/
def truthy : Value → Bool
  | nil => false
  | bool b => b
  | _ => true

def callable : Value → Bool
  | native _ | function _ => true
  | _ => false

def signature? : Value → Option (Name × Nat)
  | native f => some (f.name, f.arity)
  | function c => some (c.name, c.params.length)
  | _ => none

def text : Value → Text
  | number x => Number.write .printed x
  | string t => t
  | bool true => "true"
  | bool false => "false"
  | nil => "nil"
  | native f => "<native fn " ++ f.name ++ ">"
  | function c => "<fn " ++ c.name ++ ">"

/-- The kind of a value, as messages name it. -/
def typeName : Value → Text
  | number _ => "Number"
  | string _ => "String"
  | bool _ => "Boolean"
  | nil => "Nil"
  | native _ => "NativeFunction"
  | function _ => "Function"

/-- Functions are equal only to themselves; numbers compare as numbers. -/
def equal : Value → Value → Bool
  | number x, number y => x == y
  | string s, string t => s == t
  | bool a, bool b => a == b
  | nil, nil => true
  | native f, native g => f.id == g.id
  | function c, function d => c.id == d.id
  | _, _ => false

end Value

namespace Native

def clock : Native := ⟨0, "clock", 0⟩

/-- The functions that every program finds among its globals. -/
def standard : List Native := [clock]

end Native

end Lox
