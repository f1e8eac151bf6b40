import Lox.Proofs.Json.Written
import Lox.Proofs.Number.Natural
import Lox.Proofs.Tree.Load
import Lox.Tree.Decode
import Lox.Tree.Encode

/-! Trees are read back from their JSON form, if that form has a place for all that they hold. -/

namespace Lox

open Text

section

/-- A coordinate that counts something. -/
def Number.Countable (x : Float) : Prop :=
  ∃ m e, form x = .finite false m e ∧ (whole? m e).isSome = true

/-- A location that a text can hold. -/
def Location.Expressible (l : Location) : Prop :=
  Number.Countable l.line ∧ Number.Countable l.column

def Literal.Expressible : Literal → Prop
  | .number x => Number.Expressible x
  | _ => True

def Mark.Expressible : Mark → Prop
  | literal v => v.Expressible
  | _ => True

/-- A text can hold the node. -/
def Mark.ExpressibleAt (n : Location) (m : Mark) : Prop := n.Expressible ∧ m.Expressible

/-- The checks of a location let this one through. A zero may have a sign. -/
def Location.Valid (l : Location) : Prop :=
  (Number.isWhole l.line = true ∧ Number.isBelowZero l.line = false) ∧
    Number.isWhole l.column = true ∧ Number.isBelowZero l.column = false

def Literal.Valid : Literal → Prop
  | .number x => Number.isNaN x = false
  | _ => True

/-- The names of a node are identifiers, and its value is one that stands for something. -/
def Mark.Valid : Mark → Prop
  | literal v => v.Valid
  | access x => isIdentifier x = true
  | binding xs => ∀ x ∈ xs, isIdentifier x = true
  | _ => True

/-- The checks of a tree let the node through. -/
def Mark.ValidAt (n : Location) (m : Mark) : Prop := n.Valid ∧ m.Valid

theorem Location.Expressible.valid {n : Location} (h : n.Expressible) : n.Valid := by
  have hcoordinate {x : Float} (hx : Number.Countable x) :
      Number.isWhole x = true ∧ Number.isBelowZero x = false := by
    obtain ⟨m, e, hform, hwhole⟩ := hx
    simp [Number.isWhole, Number.isBelowZero, hform, hwhole]
  exact ⟨hcoordinate h.1, hcoordinate h.2⟩

end

namespace Decode

open Issue

variable {path key : Text} {node j : Json}

-- Parts are matched together with a proof that they are smaller; these equations leave it out.

theorem exprPart_eq (path : Text) (node : Json) (key : Text) :
    exprPart path node key = match node.field? key with
      | none => .fail (pathTo path key) .missing
      | some j => expr (pathTo path key) j := by
  rw [exprPart]
  split <;> simp only [*]

theorem exprsPart_eq (path : Text) (node : Json) (key : Text) :
    exprsPart path node key = match node.field? key with
      | none => .fail (pathTo path key) .missing
      | some (.array items) => exprsFrom (pathTo path key) 0 items
      | some j => expected (pathTo path key) "array" j := by
  rw [exprsPart]
  split <;> simp only [*]

theorem stmtPart_eq (path : Text) (node : Json) (key : Text) :
    stmtPart path node key = match node.field? key with
      | none => .fail (pathTo path key) .missing
      | some j => stmt (pathTo path key) j := by
  rw [stmtPart]
  split <;> simp only [*]

theorem optionalStmt_eq (path : Text) (node : Json) (key : Text) :
    optionalStmt path node key = match node.field? key with
      | none => .ok none
      | some j => some <$> stmt (pathTo path key) j := by
  rw [optionalStmt]
  split <;> simp only [*]

theorem stmtsPart_eq (path : Text) (node : Json) (key : Text) :
    stmtsPart path node key = match node.field? key with
      | none => .fail (pathTo path key) .missing
      | some (.array items) => stmtsFrom (pathTo path key) 0 items
      | some j => expected (pathTo path key) "array" j := by
  rw [stmtsPart]
  split <;> simp only [*]

theorem exprPart_of_field (h : node.field? key = some j) :
    exprPart path node key = expr (pathTo path key) j := by
  rw [exprPart_eq, h]

theorem exprsPart_of_field {items : List Json} (h : node.field? key = some (.array items)) :
    exprsPart path node key = exprsFrom (pathTo path key) 0 items := by
  rw [exprsPart_eq, h]

theorem optionalExpr_of_field (h : node.field? key = some j) :
    optionalExpr path node key = some <$> expr (pathTo path key) j := by
  rw [optionalExpr, h]

theorem optionalExpr_of_none (h : node.field? key = none) :
    optionalExpr path node key = .ok none := by
  rw [optionalExpr, h]

theorem stmtPart_of_field (h : node.field? key = some j) :
    stmtPart path node key = stmt (pathTo path key) j := by
  rw [stmtPart_eq, h]

theorem optionalStmt_of_field (h : node.field? key = some j) :
    optionalStmt path node key = some <$> stmt (pathTo path key) j := by
  rw [optionalStmt_eq, h]

theorem optionalStmt_of_none (h : node.field? key = none) :
    optionalStmt path node key = .ok none := by
  rw [optionalStmt_eq, h]

theorem stmtsPart_of_field {items : List Json} (h : node.field? key = some (.array items)) :
    stmtsPart path node key = stmtsFrom (pathTo path key) 0 items := by
  rw [stmtsPart_eq, h]

private theorem choice_binaryOp (op : BinaryOp) :
    choice path BinaryOp.all BinaryOp.sign (some (.string op.sign)) = .ok op := by
  cases op <;> rfl

private theorem choice_unaryOp (op : UnaryOp) :
    choice path UnaryOp.all UnaryOp.sign (some (.string op.sign)) = .ok op := by
  cases op <;> rfl

private theorem choice_logicalOp (op : LogicalOp) :
    choice path LogicalOp.all LogicalOp.sign (some (.string op.sign)) = .ok op := by
  cases op <;> rfl

private theorem coordinate_of_valid {x : Float}
    (hx : Number.isWhole x = true ∧ Number.isBelowZero x = false) :
    coordinate path (some (.number x)) = .ok x := by
  simp [coordinate, hx, Number.isNaN_of_isWhole hx.1]

theorem location_of_field {n : Location} (hn : n.Valid)
    (h : node.field? "loc" = some n.toJson) : location path node = .ok (some n) := by
  have hline : n.toJson.field? "line" = some (.number n.line) := rfl
  have hcolumn : n.toJson.field? "column" = some (.number n.column) := rfl
  rw [location, h]
  dsimp only
  rw [if_pos (show n.toJson.isObject = true from rfl), hline, hcolumn,
    coordinate_of_valid hn.1, coordinate_of_valid hn.2]
  rfl

theorem identifier_of_isIdentifier {x : Name} (hx : isIdentifier x = true) :
    identifier path (some (.string x)) = .ok x := by
  rw [identifier, if_pos hx]

private theorem literal_toJson {v : Literal} (hv : v.Valid) : literal path
    (some v.toJson) = .ok v := by
  cases v with
  | number x => simp [Literal.toJson, literal, show Number.isNaN x = false from hv]
  | _ => rfl

private theorem identifiersFrom_map (path : Text) (index : Nat) (xs : List Name)
    (h : ∀ x ∈ xs, isIdentifier x = true) :
    identifiersFrom path index (xs.map .string) = .ok xs := by
  induction xs generalizing index with
  | nil => rfl
  | cons x xs ih =>
    rw [List.map_cons, identifiersFrom, identifier_of_isIdentifier (h x List.mem_cons_self),
      ih _ fun y hy => h y (List.mem_cons_of_mem x hy)]
    rfl

private theorem identifiers_namesJson {xs : List Name} (h : ∀ x ∈ xs, isIdentifier x = true) :
    identifiers path (some (namesJson xs)) = .ok xs :=
  identifiersFrom_map path 0 xs h

mutual

/-- An expression is read back from its JSON form, wherever that stands. -/
theorem expr_toJson (path : Text) :
    ∀ e : Expr Location, e.Each Mark.ValidAt → expr path e.toJson = .ok (e.map some)
  | .binary n l op r, h => by
    let node := (Expr.binary n l op r).toJson
    have htype : typeOf? ExprType.all ExprType.text node = some .binary := rfl
    have hleft : node.field? "left" = some l.toJson := rfl
    have hop : node.field? "operator" = some (.string op.sign) := rfl
    have hright : node.field? "right" = some r.toJson := rfl
    have hloc : node.field? "loc" = some n.toJson := rfl
    rw [expr, if_pos (show node.isObject = true from rfl), htype]
    dsimp only
    rw [exprPart_of_field hleft, hop, choice_binaryOp, exprPart_of_field hright,
      location_of_field h.1.1 hloc, expr_toJson _ l h.2.1, expr_toJson _ r h.2.2]
    rfl
  | .grouping n e, h => by
    let node := (Expr.grouping n e).toJson
    have htype : typeOf? ExprType.all ExprType.text node = some .grouping := rfl
    have hinner : node.field? "expression" = some e.toJson := rfl
    have hloc : node.field? "loc" = some n.toJson := rfl
    rw [expr, if_pos (show node.isObject = true from rfl), htype]
    dsimp only
    rw [exprPart_of_field hinner, location_of_field h.1.1 hloc, expr_toJson _ e h.2]
    rfl
  | .literal n v, h => by
    let node := (Expr.literal n v).toJson
    have htype : typeOf? ExprType.all ExprType.text node = some .literal := rfl
    have hvalue : node.field? "value" = some v.toJson := rfl
    have hloc : node.field? "loc" = some n.toJson := rfl
    rw [expr, if_pos (show node.isObject = true from rfl), htype]
    dsimp only
    rw [hvalue, literal_toJson h.2, location_of_field h.1 hloc]
    rfl
  | .unary n op e, h => by
    let node := (Expr.unary n op e).toJson
    have htype : typeOf? ExprType.all ExprType.text node = some .unary := rfl
    have hop : node.field? "operator" = some (.string op.sign) := rfl
    have hoperand : node.field? "operand" = some e.toJson := rfl
    have hloc : node.field? "loc" = some n.toJson := rfl
    rw [expr, if_pos (show node.isObject = true from rfl), htype]
    dsimp only
    rw [hop, choice_unaryOp, exprPart_of_field hoperand, location_of_field h.1.1 hloc,
      expr_toJson _ e h.2]
    rfl
  | .reference n x, h => by
    let node := (Expr.reference n x).toJson
    have htype : typeOf? ExprType.all ExprType.text node = some .reference := rfl
    have hname : node.field? "name" = some (.string x) := rfl
    have hloc : node.field? "loc" = some n.toJson := rfl
    rw [expr, if_pos (show node.isObject = true from rfl), htype]
    dsimp only
    rw [hname, identifier_of_isIdentifier h.2, location_of_field h.1 hloc]
    rfl
  | .assign n x e, h => by
    let node := (Expr.assign n x e).toJson
    have htype : typeOf? ExprType.all ExprType.text node = some .assign := rfl
    have hname : node.field? "name" = some (.string x) := rfl
    have hvalue : node.field? "value" = some e.toJson := rfl
    have hloc : node.field? "loc" = some n.toJson := rfl
    rw [expr, if_pos (show node.isObject = true from rfl), htype]
    dsimp only
    rw [hname, identifier_of_isIdentifier h.1.2, exprPart_of_field hvalue,
      location_of_field h.1.1 hloc, expr_toJson _ e h.2]
    rfl
  | .logical n l op r, h => by
    let node := (Expr.logical n l op r).toJson
    have htype : typeOf? ExprType.all ExprType.text node = some .logical := rfl
    have hleft : node.field? "left" = some l.toJson := rfl
    have hop : node.field? "operator" = some (.string op.sign) := rfl
    have hright : node.field? "right" = some r.toJson := rfl
    have hloc : node.field? "loc" = some n.toJson := rfl
    rw [expr, if_pos (show node.isObject = true from rfl), htype]
    dsimp only
    rw [exprPart_of_field hleft, hop, choice_logicalOp, exprPart_of_field hright,
      location_of_field h.1.1 hloc, expr_toJson _ l h.2.1, expr_toJson _ r h.2.2]
    rfl
  | .call n c args, h => by
    let node := (Expr.call n c args).toJson
    have htype : typeOf? ExprType.all ExprType.text node = some .call := rfl
    have hcallee : node.field? "callee" = some c.toJson := rfl
    have hargs : node.field? "args" = some (.array (Expr.allToJson args)) := rfl
    have hloc : node.field? "loc" = some n.toJson := rfl
    rw [expr, if_pos (show node.isObject = true from rfl), htype]
    dsimp only
    rw [exprPart_of_field hcallee, exprsPart_of_field hargs, location_of_field h.1.1 hloc,
      expr_toJson _ c h.2.1, exprsFrom_allToJson _ _ args h.2.2]
    rfl

theorem exprsFrom_allToJson (path : Text) (index : Nat) :
    ∀ es : List (Expr Location), Expr.EachOf Mark.ValidAt es →
      exprsFrom path index (Expr.allToJson es) = .ok (Expr.mapAll some es)
  | [], _ => by
    rw [Expr.allToJson, exprsFrom]
    rfl
  | e :: es, h => by
    rw [Expr.allToJson, exprsFrom, expr_toJson _ e h.1, exprsFrom_allToJson _ _ es h.2]
    rfl

end

mutual

/-- A statement is read back from its JSON form, wherever that stands. -/
theorem stmt_toJson (path : Text) :
    ∀ s : Stmt Location, s.Each Mark.ValidAt → stmt path s.toJson = .ok (s.map some)
  | .expression n e, h => by
    let node := (Stmt.expression n e).toJson
    have htype : typeOf? StmtType.all StmtType.text node = some .expression := rfl
    have hvalue : node.field? "expression" = some e.toJson := rfl
    have hloc : node.field? "loc" = some n.toJson := rfl
    rw [stmt, if_pos (show node.isObject = true from rfl), htype]
    dsimp only
    rw [exprPart_of_field hvalue, location_of_field h.1.1 hloc, expr_toJson _ e h.2]
    rfl
  | .print n e, h => by
    let node := (Stmt.print n e).toJson
    have htype : typeOf? StmtType.all StmtType.text node = some .print := rfl
    have hvalue : node.field? "expression" = some e.toJson := rfl
    have hloc : node.field? "loc" = some n.toJson := rfl
    rw [stmt, if_pos (show node.isObject = true from rfl), htype]
    dsimp only
    rw [exprPart_of_field hvalue, location_of_field h.1.1 hloc, expr_toJson _ e h.2]
    rfl
  | .varDecl n x none, h => by
    have hx : isIdentifier x = true := h.1.2 x (List.mem_singleton_self x)
    let node := (Stmt.varDecl n x none).toJson
    have htype : typeOf? StmtType.all StmtType.text node = some .varDecl := rfl
    have hname : node.field? "name" = some (.string x) := rfl
    have hvalue : node.field? "initializer" = none := rfl
    have hloc : node.field? "loc" = some n.toJson := rfl
    rw [stmt, if_pos (show node.isObject = true from rfl), htype]
    dsimp only
    rw [hname, identifier_of_isIdentifier hx, optionalExpr_of_none hvalue,
      location_of_field h.1.1 hloc]
    rfl
  | .varDecl n x (some e), h => by
    have hx : isIdentifier x = true := h.1.2 x (List.mem_singleton_self x)
    let node := (Stmt.varDecl n x (some e)).toJson
    have htype : typeOf? StmtType.all StmtType.text node = some .varDecl := rfl
    have hname : node.field? "name" = some (.string x) := rfl
    have hvalue : node.field? "initializer" = some e.toJson := rfl
    have hloc : node.field? "loc" = some n.toJson := rfl
    rw [stmt, if_pos (show node.isObject = true from rfl), htype]
    dsimp only
    rw [hname, identifier_of_isIdentifier hx, optionalExpr_of_field hvalue,
      location_of_field h.1.1 hloc, expr_toJson _ e (h.2 e rfl)]
    rfl
  | .block n body, h => by
    let node := (Stmt.block n body).toJson
    have htype : typeOf? StmtType.all StmtType.text node = some .block := rfl
    have hbody : node.field? "statements" = some (.array (Program.itemsToJson body)) := rfl
    have hloc : node.field? "loc" = some n.toJson := rfl
    rw [stmt, if_pos (show node.isObject = true from rfl), htype]
    dsimp only
    rw [stmtsPart_of_field hbody, location_of_field h.1.1 hloc, stmtsFrom_itemsToJson _ _ body h.2]
    rfl
  | .ifElse n c t none, h => by
    let node := (Stmt.ifElse n c t none).toJson
    have htype : typeOf? StmtType.all StmtType.text node = some .ifElse := rfl
    have hcondition : node.field? "condition" = some c.toJson := rfl
    have hthen : node.field? "thenBranch" = some t.toJson := rfl
    have helse : node.field? "elseBranch" = none := rfl
    have hloc : node.field? "loc" = some n.toJson := rfl
    rw [stmt, if_pos (show node.isObject = true from rfl), htype]
    dsimp only
    rw [exprPart_of_field hcondition, stmtPart_of_field hthen, optionalStmt_of_none helse,
      location_of_field h.1.1 hloc, expr_toJson _ c h.2.1, stmt_toJson _ t h.2.2]
    rfl
  | .ifElse n c t (some e), h => by
    let node := (Stmt.ifElse n c t (some e)).toJson
    have htype : typeOf? StmtType.all StmtType.text node = some .ifElse := rfl
    have hcondition : node.field? "condition" = some c.toJson := rfl
    have hthen : node.field? "thenBranch" = some t.toJson := rfl
    have helse : node.field? "elseBranch" = some e.toJson := rfl
    have hloc : node.field? "loc" = some n.toJson := rfl
    rw [stmt, if_pos (show node.isObject = true from rfl), htype]
    dsimp only
    rw [exprPart_of_field hcondition, stmtPart_of_field hthen, optionalStmt_of_field helse,
      location_of_field h.1.1 hloc, expr_toJson _ c h.2.1, stmt_toJson _ t h.2.2.1,
      stmt_toJson _ e h.2.2.2]
    rfl
  | .whileLoop n c body, h => by
    let node := (Stmt.whileLoop n c body).toJson
    have htype : typeOf? StmtType.all StmtType.text node = some .whileLoop := rfl
    have hcondition : node.field? "condition" = some c.toJson := rfl
    have hbody : node.field? "body" = some body.toJson := rfl
    have hloc : node.field? "loc" = some n.toJson := rfl
    rw [stmt, if_pos (show node.isObject = true from rfl), htype]
    dsimp only
    rw [exprPart_of_field hcondition, stmtPart_of_field hbody, location_of_field h.1.1 hloc,
      expr_toJson _ c h.2.1, stmt_toJson _ body h.2.2]
    rfl
  | .funDecl n x params body, h => by
    obtain ⟨hx, hparameters⟩ := List.forall_mem_cons.mp h.1.2
    let node := (Stmt.funDecl n x params body).toJson
    have htype : typeOf? StmtType.all StmtType.text node = some .funDecl := rfl
    have hname : node.field? "name" = some (.string x) := rfl
    have hparams : node.field? "params" = some (namesJson params) := rfl
    have hbody : node.field? "body" = some (.array (Program.itemsToJson body)) := rfl
    have hloc : node.field? "loc" = some n.toJson := rfl
    rw [stmt, if_pos (show node.isObject = true from rfl), htype]
    dsimp only
    rw [hname, identifier_of_isIdentifier hx, hparams, identifiers_namesJson hparameters,
      stmtsPart_of_field hbody, location_of_field h.1.1 hloc,
      stmtsFrom_itemsToJson _ _ body h.2]
    rfl
  | .returnStmt n none, h => by
    let node := (Stmt.returnStmt n none).toJson
    have htype : typeOf? StmtType.all StmtType.text node = some .returnStmt := rfl
    have hvalue : node.field? "value" = none := rfl
    have hloc : node.field? "loc" = some n.toJson := rfl
    rw [stmt, if_pos (show node.isObject = true from rfl), htype]
    dsimp only
    rw [optionalExpr_of_none hvalue, location_of_field h.1.1 hloc]
    rfl
  | .returnStmt n (some e), h => by
    let node := (Stmt.returnStmt n (some e)).toJson
    have htype : typeOf? StmtType.all StmtType.text node = some .returnStmt := rfl
    have hvalue : node.field? "value" = some e.toJson := rfl
    have hloc : node.field? "loc" = some n.toJson := rfl
    rw [stmt, if_pos (show node.isObject = true from rfl), htype]
    dsimp only
    rw [optionalExpr_of_field hvalue, location_of_field h.1.1 hloc, expr_toJson _ e (h.2 e rfl)]
    rfl

theorem stmtsFrom_itemsToJson (path : Text) (index : Nat) :
    ∀ p : Program Location, Program.Each Mark.ValidAt p →
      stmtsFrom path index (Program.itemsToJson p) = .ok (Program.map some p)
  | [], _ => by
    rw [Program.itemsToJson, stmtsFrom]
    rfl
  | s :: rest, h => by
    rw [Program.itemsToJson, stmtsFrom, stmt_toJson _ s h.1, stmtsFrom_itemsToJson _ _ rest h.2]
    rfl

end

end Decode

section Form

private theorem Number.Countable.expressible {x : Float} (h : Number.Countable x) :
    Number.Expressible x := by
  obtain ⟨m, e, hform, -⟩ := h
  exact ⟨false, m, e, hform, fun _ => rfl⟩

private theorem Location.Expressible.toJson {n : Location} (h : n.Expressible) :
    n.toJson.Expressible :=
  ⟨(by decide : (["line", "column"] : List Text).Nodup), h.1.expressible, h.2.expressible, trivial⟩

private theorem Literal.Expressible.toJson {v : Literal} (h : v.Expressible) :
    v.toJson.Expressible := by
  cases v with
  | number x => exact h
  | _ => trivial

private theorem Json.FieldsExpressible.concat {fields : List (Text × Json)}
    (h : Json.FieldsExpressible fields) {key : Text} {j : Json} (hj : j.Expressible) :
    Json.FieldsExpressible (fields.concat (key, j)) := by
  induction fields with
  | nil => exact ⟨hj, trivial⟩
  | cons field fields ih => exact ⟨h.1, ih h.2⟩

/-- A node has the form of its parts, if these have different keys and none of the node's own. -/
theorem nodeJson_expressible {type : Text} {parts : List (Text × Json)} {n : Location}
    (hkeys : (("type" : Text) :: (parts.map Prod.fst).concat "loc").Nodup) (hn : n.Expressible)
    (hparts : Json.FieldsExpressible parts) : (nodeJson type parts n).Expressible := by
  refine ⟨?_, trivial, hparts.concat hn.toJson⟩
  rw [List.map_cons, List.map_concat]
  exact hkeys

private theorem namesJson_expressible (xs : List Name) : (namesJson xs).Expressible := by
  induction xs with
  | nil => exact trivial
  | cons x xs ih => exact ⟨trivial, ih⟩

mutual

theorem Expr.expressible_toJson :
    ∀ e : Expr Location, e.Each Mark.ExpressibleAt → e.toJson.Expressible
  | .binary _ l _ r, h | .logical _ l _ r, h =>
    nodeJson_expressible
      (by decide : (["type", "left", "operator", "right", "loc"] : List Text).Nodup) h.1.1
      ⟨Expr.expressible_toJson l h.2.1, trivial, Expr.expressible_toJson r h.2.2, trivial⟩
  | .grouping _ e, h =>
    nodeJson_expressible (by decide : (["type", "expression", "loc"] : List Text).Nodup) h.1.1
      ⟨Expr.expressible_toJson e h.2, trivial⟩
  | .literal _ _, h =>
    nodeJson_expressible (by decide : (["type", "value", "loc"] : List Text).Nodup) h.1
      ⟨h.2.toJson, trivial⟩
  | .unary _ _ e, h =>
    nodeJson_expressible (by decide : (["type", "operator", "operand", "loc"] : List Text).Nodup)
      h.1.1 ⟨trivial, Expr.expressible_toJson e h.2, trivial⟩
  | .reference _ _, h =>
    nodeJson_expressible (by decide : (["type", "name", "loc"] : List Text).Nodup) h.1
      ⟨trivial, trivial⟩
  | .assign _ _ e, h =>
    nodeJson_expressible (by decide : (["type", "name", "value", "loc"] : List Text).Nodup) h.1.1
      ⟨trivial, Expr.expressible_toJson e h.2, trivial⟩
  | .call _ c args, h =>
    nodeJson_expressible (by decide : (["type", "callee", "args", "loc"] : List Text).Nodup) h.1.1
      ⟨Expr.expressible_toJson c h.2.1, Expr.expressible_allToJson args h.2.2, trivial⟩

theorem Expr.expressible_allToJson :
    ∀ es : List (Expr Location), Expr.EachOf Mark.ExpressibleAt es →
      Json.AllExpressible (Expr.allToJson es)
  | [], _ => trivial
  | e :: es, h => ⟨Expr.expressible_toJson e h.1, Expr.expressible_allToJson es h.2⟩

end

mutual

theorem Stmt.expressible_toJson :
    ∀ s : Stmt Location, s.Each Mark.ExpressibleAt → s.toJson.Expressible
  | .expression _ e, h | .print _ e, h =>
    nodeJson_expressible (by decide : (["type", "expression", "loc"] : List Text).Nodup) h.1.1
      ⟨Expr.expressible_toJson e h.2, trivial⟩
  | .varDecl _ _ none, h =>
    nodeJson_expressible (by decide : (["type", "name", "loc"] : List Text).Nodup) h.1.1
      ⟨trivial, trivial⟩
  | .varDecl _ _ (some e), h =>
    nodeJson_expressible (by decide : (["type", "name", "initializer", "loc"] : List Text).Nodup)
      h.1.1 ⟨trivial, Expr.expressible_toJson e (h.2 e rfl), trivial⟩
  | .block _ body, h =>
    nodeJson_expressible (by decide : (["type", "statements", "loc"] : List Text).Nodup) h.1.1
      ⟨Program.expressible_itemsToJson body h.2, trivial⟩
  | .ifElse _ c t none, h =>
    nodeJson_expressible
      (by decide : (["type", "condition", "thenBranch", "loc"] : List Text).Nodup) h.1.1
      ⟨Expr.expressible_toJson c h.2.1, Stmt.expressible_toJson t h.2.2, trivial⟩
  | .ifElse _ c t (some e), h =>
    nodeJson_expressible
      (by decide : (["type", "condition", "thenBranch", "elseBranch", "loc"] : List Text).Nodup)
      h.1.1 ⟨Expr.expressible_toJson c h.2.1, Stmt.expressible_toJson t h.2.2.1,
        Stmt.expressible_toJson e h.2.2.2, trivial⟩
  | .whileLoop _ c body, h =>
    nodeJson_expressible
      (by decide : (["type", "condition", "body", "loc"] : List Text).Nodup) h.1.1
      ⟨Expr.expressible_toJson c h.2.1, Stmt.expressible_toJson body h.2.2, trivial⟩
  | .funDecl _ _ params body, h =>
    nodeJson_expressible
      (by decide : (["type", "name", "params", "body", "loc"] : List Text).Nodup) h.1.1
      ⟨trivial, namesJson_expressible params, Program.expressible_itemsToJson body h.2, trivial⟩
  | .returnStmt _ none, h =>
    nodeJson_expressible (by decide : (["type", "loc"] : List Text).Nodup) h.1.1 trivial
  | .returnStmt _ (some e), h =>
    nodeJson_expressible (by decide : (["type", "value", "loc"] : List Text).Nodup) h.1.1
      ⟨Expr.expressible_toJson e (h.2 e rfl), trivial⟩

theorem Program.expressible_itemsToJson :
    ∀ p : Program Location, Program.Each Mark.ExpressibleAt p →
      Json.AllExpressible (Program.itemsToJson p)
  | [], _ => trivial
  | s :: rest, h => ⟨Stmt.expressible_toJson s h.1, Program.expressible_itemsToJson rest h.2⟩

end

theorem Program.expressible_toJson {p : Program Location}
    (h : Program.Each Mark.ExpressibleAt p) : (Program.toJson p).Expressible :=
  Program.expressible_itemsToJson p h

end Form

/-- What passes the checks is made into a program that says where each node comes from. -/
theorem Program.ofJson?_of_check {j : Option Json} {p : Program (Option Location)}
    (h : Program.check j = .ok p) :
    Program.ofJson? j = .ok (Program.map Location.orUnknown p) := by
  rw [ofJson?, h, ← load_unit]
  rfl

private theorem Program.check_toJson {p : Program Location} (h : Program.Each Mark.ValidAt p) :
    Program.check (some (Program.toJson p)) = .ok (Program.map some p) :=
  Decode.stmtsFrom_itemsToJson [] 0 p h

/-- A program is read back from its JSON form. -/
theorem Program.ofJson?_toJson {p : Program Location} (h : Program.Each Mark.ValidAt p) :
    Program.ofJson? (some (Program.toJson p)) = .ok p := by
  rw [ofJson?_of_check (check_toJson h), Program.map_map]
  exact congrArg Checked.ok p.map_id

end Lox
