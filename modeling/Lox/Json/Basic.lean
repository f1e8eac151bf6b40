import Lox.Number.Binary
import Lox.Text

/-! JSON values. An object is a list of fields with different keys, in the order of their first
appearance. -/

namespace Lox

inductive Json where
  | null
  | bool (value : Bool)
  | number (value : Float)
  | string (value : Text)
  | array (items : List Json)
  | object (fields : List (Text × Json))

namespace Json

instance : Inhabited Json := ⟨.null⟩

/-- Sets a field; one with the same key is replaced where it stands. -/
def setField (key : Text) (value : Json) : List (Text × Json) → List (Text × Json)
  | [] => [(key, value)]
  | (k, v) :: rest => if k = key then (k, value) :: rest else (k, v) :: setField key value rest

/-- The value under a key of an object. -/
def field? (key : Text) : Json → Option Json
  | .object fields => fields.lookup key
  | _ => none

def isObject : Json → Bool
  | .object _ => true
  | _ => false

/-- The kind of a value, as messages name it. -/
def kindName : Json → Text
  | .null => "null"
  | .bool _ => "boolean"
  | .number x => if Number.isNaN x then "nan" else "number"
  | .string _ => "string"
  | .array _ => "array"
  | .object _ => "object"

theorem sizeOf_lookup_lt {key : Text} {value : Json} :
    ∀ {fields : List (Text × Json)}, fields.lookup key = some value →
      sizeOf value < sizeOf fields
  | [], h => by simp at h
  | (k, v) :: rest, h => by
    rw [List.lookup_cons] at h
    split at h
    · cases h
      simp
      omega
    · have := sizeOf_lookup_lt h
      simp
      omega

theorem sizeOf_field?_lt {key : Text} {value j : Json} (h : j.field? key = some value) :
    sizeOf value < sizeOf j := by
  cases j with
  | object fields =>
    have : sizeOf value < sizeOf fields := sizeOf_lookup_lt h
    simp
    omega
  | _ => simp [field?] at h

end Json

end Lox
