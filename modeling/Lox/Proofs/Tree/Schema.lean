import Lox.Json.Basic
import Lox.Proofs.Number.Natural
import Lox.Tree.Basic

/-! The JSON form of trees as a table: the types of nodes, the fields of each type, what stands in
them and which of them may be absent. From the table come the values that fit a place of a tree, and
their normal form, which has the fields of the table alone. -/

namespace Lox.Schema

open Text

inductive NodeKind where
  | expression | statement
  deriving DecidableEq, Repr

/-- What stands at a place of a tree. -/
inductive Role where
  | literal
  | name
  /-- One of some texts. -/
  | choice (choices : List Text)
  | location
  | node (kind : NodeKind)
  | list (item : Role)
  deriving DecidableEq, Repr

/-- A field of a node. -/
structure Field where
  key : Text
  role : Role
  isRequired : Bool
  deriving DecidableEq, Repr

def required (key : Text) (role : Role) : Field := ⟨key, role, true⟩

def optional (key : Text) (role : Role) : Field := ⟨key, role, false⟩

@[simp] theorem key_required (key : Text) (role : Role) : (required key role).key = key := rfl

@[simp] theorem key_optional (key : Text) (role : Role) : (optional key role).key = key := rfl

/-- Any node may say where it comes from. -/
def locationField : Field := optional "loc" .location

def binaryOperators : List Text := ["+", "-", "*", "/", "%", ">", ">=", "<", "<=", "==", "!="]

def unaryOperators : List Text := ["-", "!"]

def logicalOperators : List Text := ["and", "or"]

/-- The types of a kind of nodes, each with its fields besides the location. -/
def NodeKind.types : NodeKind → List (Text × List Field)
  | .expression =>
    [("binary",
        [required "left" (.node .expression), required "operator" (.choice binaryOperators),
          required "right" (.node .expression)]),
      ("grouping", [required "expression" (.node .expression)]),
      ("literal", [required "value" .literal]),
      ("unary",
        [required "operator" (.choice unaryOperators), required "operand" (.node .expression)]),
      ("variable", [required "name" .name]),
      ("assign", [required "name" .name, required "value" (.node .expression)]),
      ("logical",
        [required "left" (.node .expression), required "operator" (.choice logicalOperators),
          required "right" (.node .expression)]),
      ("call",
        [required "callee" (.node .expression), required "args" (.list (.node .expression))])]
  | .statement =>
    [("expression", [required "expression" (.node .expression)]),
      ("print", [required "expression" (.node .expression)]),
      ("var", [required "name" .name, optional "initializer" (.node .expression)]),
      ("block", [required "statements" (.list (.node .statement))]),
      ("if",
        [required "condition" (.node .expression), required "thenBranch" (.node .statement),
          optional "elseBranch" (.node .statement)]),
      ("while", [required "condition" (.node .expression), required "body" (.node .statement)]),
      ("function",
        [required "name" .name, required "params" (.list .name),
          required "body" (.list (.node .statement))]),
      ("return", [optional "value" (.node .expression)])]

/-- A program is a list of statements. -/
def program : Role := .list (.node .statement)

/-- The JSON values that can stand at a place of a tree. Fields that the table does not name may
hold anything. -/
inductive Fits : Role → Json → Prop
  | number {x : Float} : Number.isNaN x = false → Fits .literal (.number x)
  | string (t : Text) : Fits .literal (.string t)
  | bool (b : Bool) : Fits .literal (.bool b)
  | null : Fits .literal .null
  | name {x : Name} : isIdentifier x = true → Fits .name (.string x)
  | choice {choices : List Text} {t : Text} : t ∈ choices → Fits (.choice choices) (.string t)
  | location {j : Json} {line column : Float} : j.field? "line" = some (.number line) →
    j.field? "column" = some (.number column) → Number.IsNatural line →
    Number.IsNatural column → Fits .location j
  | node {kind : NodeKind} {j : Json} {type : Text} {fields : List Field} :
    j.field? "type" = some (.string type) → kind.types.lookup type = some fields →
    (∀ f ∈ fields, f.isRequired = true → (j.field? f.key).isSome) →
    (∀ f ∈ fields.concat locationField, ∀ part, j.field? f.key = some part → Fits f.role part) →
    Fits (.node kind) j
  | list {item : Role} {items : List Json} : (∀ i ∈ items, Fits item i) →
    Fits (.list item) (.array items)

/-- A location with its two coordinates alone; one that is missing becomes line 0, column 0. -/
def normalLocation : Option Json → Json
  | some l =>
    .object [("line", (l.field? "line").getD .null), ("column", (l.field? "column").getD .null)]
  | none => .object [("line", .number Number.zero), ("column", .number Number.zero)]

/-- A value that fits, without the fields that the table does not name and with every location that
is missing. The fields stand in the order of the table, the type first and the location last. -/
def normal (role : Role) (j : Json) : Json :=
  match role with
  | .location => normalLocation (some j)
  | .node kind =>
    match j.field? "type" with
    | some (.string type) =>
      let parts := ((kind.types.lookup type).getD []).filterMap fun f =>
        match _h : j.field? f.key with
        | none => none
        | some part => some (f.key, normal f.role part)
      .object (("type", .string type) :: parts.concat ("loc", normalLocation (j.field? "loc")))
    | _ => j
  | .list item =>
    match j with
    | .array items => .array (items.map fun i => normal item i)
    | _ => j
  | _ => j
  termination_by sizeOf j
  decreasing_by
    · exact Json.sizeOf_field?_lt _h
    · rename_i hmem
      have hsize := List.sizeOf_lt_of_mem hmem
      simp
      omega

end Lox.Schema
