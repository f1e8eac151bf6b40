import Lox.Proofs.Tree.Parsed

/-! What is read from a JSON form passes the checks again, so reading it once more from the form
that it is written in changes nothing. -/

namespace Lox

namespace Checked

variable {α β : Type} {P : β → Prop} {Q : α → Prop}

/-- What was read, if anything was, has the property. -/
def Holds (P : α → Prop) : Checked α → Prop
  | ok a => P a
  | wrong .. => True

theorem Holds.map {x : Checked α} (hx : x.Holds Q) {f : α → β} (h : ∀ a, Q a → P (f a)) :
    (f <$> x).Holds P := by
  cases x with
  | ok a => exact h a hx
  | wrong first rest => exact trivial

/-- Another part has been read. -/
theorem Holds.seq {f : Checked (α → β)} {x : Checked α} (hf : f.Holds fun g => ∀ a, Q a → P (g a))
    (hx : x.Holds Q) : (f <*> x).Holds P := by
  cases f with
  | ok g => exact hx.map hf
  | wrong first rest => cases x <;> exact trivial

end Checked

/-- The checks have let the node through, which may not say where it comes from. -/
abbrev Mark.PassedAt (l : Option Location) : Mark → Prop := Mark.ValidAt (Location.orUnknown l)

namespace Decode

open Issue Text Checked

variable {path : Text}

private theorem holds_coordinate (path : Text) (j : Option Json) :
    (coordinate path j).Holds fun x => Number.isWhole x = true ∧ Number.isBelowZero x = false := by
  fun_cases coordinate path j with
  | case3 x hnumber hsign hwhole => exact ⟨hwhole, hsign⟩
  | _ => exact trivial

theorem holds_location (path : Text) (node : Json) :
    (location path node).Holds fun l => (Location.orUnknown l).Valid := by
  fun_cases location path node with
  | case1 => exact ⟨by decide +kernel, by decide +kernel⟩
  | case2 p l _ _ =>
    exact .seq (.map (holds_coordinate ..) fun _ hline _ hcolumn => ⟨hline, hcolumn⟩)
      (holds_coordinate ..)
  | case3 => exact trivial

theorem holds_identifier (path : Text) (j : Option Json) :
    (identifier path j).Holds fun x => isIdentifier x = true := by
  fun_cases identifier path j with
  | case2 x hx => exact hx
  | _ => exact trivial

private theorem holds_identifiersFrom (path : Text) (index : Nat) (items : List Json) :
    (identifiersFrom path index items).Holds fun xs => ∀ x ∈ xs, isIdentifier x = true := by
  induction items generalizing index with
  | nil => exact nofun
  | cons j rest ih =>
    exact .seq (.map (holds_identifier ..) fun _ hx _ hxs => List.forall_mem_cons.mpr ⟨hx, hxs⟩)
      (ih _)

private theorem holds_identifiers (path : Text) (j : Option Json) :
    (identifiers path j).Holds fun xs => ∀ x ∈ xs, isIdentifier x = true := by
  fun_cases identifiers path j with
  | case2 items => exact holds_identifiersFrom path 0 items
  | _ => exact trivial

private theorem holds_choice {α : Type} {choices : List α} {text : α → Text} (path : Text)
    (j : Option Json) : (choice path choices text j).Holds fun _ => True := by
  cases choice path choices text j <;> exact trivial

private theorem holds_literal (path : Text) (j : Option Json) :
    (literal path j).Holds Literal.Valid := by
  fun_cases literal path j with
  | case2 x hnumber => exact Bool.eq_false_iff.mpr hnumber
  | _ => exact trivial

theorem sizeOf_items_lt {node : Json} {key : Text} {items : List Json}
    (h : node.field? key = some (.array items)) : sizeOf items < sizeOf node := by
  have hsize := Json.sizeOf_field?_lt h
  simp at hsize
  omega

mutual

/-- What is read as an expression passes the checks. -/
theorem holds_expr (path : Text) (node : Json) : (expr path node).Holds (·.Each Mark.PassedAt) := by
  have hlocation := holds_location path node
  rw [expr]
  by_cases hobject : node.isObject = true
  case neg =>
    rw [if_neg hobject]
    exact trivial
  rw [if_pos hobject]
  cases typeOf? ExprType.all ExprType.text node with
  | none => exact trivial
  | some type =>
    cases type with
    | binary | logical =>
      have hleft := holds_exprPart path node "left"
      have hright := holds_exprPart path node "right"
      refine .seq (.seq (.seq (.map hleft ?_) (holds_choice ..)) hright) hlocation
      exact fun l hl _ _ r hr n hn => ⟨⟨hn, trivial⟩, hl, hr⟩
    | grouping =>
      have hinner := holds_exprPart path node "expression"
      exact .seq (.map hinner fun e he n hn => ⟨⟨hn, trivial⟩, he⟩) hlocation
    | literal => exact .seq (.map (holds_literal ..) fun v hv n hn => ⟨hn, hv⟩) hlocation
    | unary =>
      have hoperand := holds_exprPart path node "operand"
      refine .seq (.seq (.map (holds_choice ..) ?_) hoperand) hlocation
      exact fun _ _ e he n hn => ⟨⟨hn, trivial⟩, he⟩
    | reference => exact .seq (.map (holds_identifier ..) fun x hx n hn => ⟨hn, hx⟩) hlocation
    | assign =>
      have hvalue := holds_exprPart path node "value"
      refine .seq (.seq (.map (holds_identifier ..) ?_) hvalue) hlocation
      exact fun x hx e he n hn => ⟨⟨hn, hx⟩, he⟩
    | call =>
      have hcallee := holds_exprPart path node "callee"
      have hargs := holds_exprsPart path node "args"
      refine .seq (.seq (.map hcallee ?_) hargs) hlocation
      exact fun c hc args hargs n hn => ⟨⟨hn, trivial⟩, hc, hargs⟩
  termination_by (sizeOf node, 1)

theorem holds_exprPart (path : Text) (node : Json) (key : Text) :
    (exprPart path node key).Holds (·.Each Mark.PassedAt) := by
  rw [exprPart_eq]
  cases h : node.field? key with
  | none => exact trivial
  | some j =>
    have hsize : sizeOf j < sizeOf node := Json.sizeOf_field?_lt h
    exact holds_expr _ j
  termination_by (sizeOf node, 0)

theorem holds_exprsPart (path : Text) (node : Json) (key : Text) :
    (exprsPart path node key).Holds (Expr.EachOf Mark.PassedAt) := by
  rw [exprsPart_eq]
  cases h : node.field? key with
  | none => exact trivial
  | some j =>
    cases j with
    | array items =>
      have hsize : sizeOf items < sizeOf node := sizeOf_items_lt h
      exact holds_exprsFrom _ 0 items
    | _ => exact trivial
  termination_by (sizeOf node, 0)

theorem holds_exprsFrom (path : Text) (index : Nat) (items : List Json) :
    (exprsFrom path index items).Holds (Expr.EachOf Mark.PassedAt) := by
  cases items with
  | nil => rw [exprsFrom]; exact trivial
  | cons j rest =>
    rw [exprsFrom]
    exact .seq (.map (holds_expr _ j) fun _ he _ hrest => ⟨he, hrest⟩) (holds_exprsFrom path _ rest)
  termination_by (sizeOf items, 0)

end

private theorem holds_optionalExpr (path : Text) (node : Json) (key : Text) :
    (optionalExpr path node key).Holds (Expr.Each? Mark.PassedAt) := by
  rw [optionalExpr]
  cases node.field? key with
  | none =>
    intro part hpart
    cases hpart
  | some j => exact (holds_expr _ j).map fun e he e' heq => Option.some.inj heq ▸ he

mutual

/-- What is read as a statement passes the checks. -/
theorem holds_stmt (path : Text) (node : Json) : (stmt path node).Holds (·.Each Mark.PassedAt) := by
  have hlocation := holds_location path node
  rw [stmt]
  by_cases hobject : node.isObject = true
  case neg =>
    rw [if_neg hobject]
    exact trivial
  rw [if_pos hobject]
  cases typeOf? StmtType.all StmtType.text node with
  | none => exact trivial
  | some type =>
    cases type with
    | expression | print =>
      have hvalue := holds_exprPart path node "expression"
      exact .seq (.map hvalue fun e he n hn => ⟨⟨hn, trivial⟩, he⟩) hlocation
    | varDecl =>
      have hinitializer := holds_optionalExpr path node "initializer"
      refine .seq (.seq (.map (holds_identifier ..) ?_) hinitializer) hlocation
      exact fun x hx e he n hn => ⟨⟨hn, List.forall_mem_singleton.mpr hx⟩, he⟩
    | block =>
      have hbody := holds_stmtsPart path node "statements"
      exact .seq (.map hbody fun body hbody n hn => ⟨⟨hn, trivial⟩, hbody⟩) hlocation
    | ifElse =>
      have hcondition := holds_exprPart path node "condition"
      have hthen := holds_stmtPart path node "thenBranch"
      have helse := holds_optionalStmt path node "elseBranch"
      refine .seq (.seq (.seq (.map hcondition fun c hc t ht e he n hn => ?_) hthen) helse)
        hlocation
      cases e with
      | none => exact ⟨⟨hn, trivial⟩, hc, ht⟩
      | some e => exact ⟨⟨hn, trivial⟩, hc, ht, he e rfl⟩
    | whileLoop =>
      have hcondition := holds_exprPart path node "condition"
      have hbody := holds_stmtPart path node "body"
      refine .seq (.seq (.map hcondition ?_) hbody) hlocation
      exact fun c hc body hbody n hn => ⟨⟨hn, trivial⟩, hc, hbody⟩
    | funDecl =>
      have hbody := holds_stmtsPart path node "body"
      refine .seq (.seq (.seq (.map (holds_identifier ..) ?_) (holds_identifiers ..)) hbody)
        hlocation
      exact fun x hx params hparams body hbody n hn =>
        ⟨⟨hn, List.forall_mem_cons.mpr ⟨hx, hparams⟩⟩, hbody⟩
    | returnStmt =>
      have hvalue := holds_optionalExpr path node "value"
      exact .seq (.map hvalue fun e he n hn => ⟨⟨hn, trivial⟩, he⟩) hlocation
  termination_by (sizeOf node, 1)

theorem holds_stmtPart (path : Text) (node : Json) (key : Text) :
    (stmtPart path node key).Holds (·.Each Mark.PassedAt) := by
  rw [stmtPart_eq]
  cases h : node.field? key with
  | none => exact trivial
  | some j =>
    have hsize : sizeOf j < sizeOf node := Json.sizeOf_field?_lt h
    exact holds_stmt _ j
  termination_by (sizeOf node, 0)

theorem holds_optionalStmt (path : Text) (node : Json) (key : Text) :
    (optionalStmt path node key).Holds fun s => ∀ s' ∈ s, s'.Each Mark.PassedAt := by
  rw [optionalStmt_eq]
  cases h : node.field? key with
  | none =>
    intro part hpart
    cases hpart
  | some j =>
    have hsize : sizeOf j < sizeOf node := Json.sizeOf_field?_lt h
    exact (holds_stmt _ j).map fun s hs s' heq => Option.some.inj heq ▸ hs
  termination_by (sizeOf node, 0)

theorem holds_stmtsPart (path : Text) (node : Json) (key : Text) :
    (stmtsPart path node key).Holds (Program.Each Mark.PassedAt) := by
  rw [stmtsPart_eq]
  cases h : node.field? key with
  | none => exact trivial
  | some j =>
    cases j with
    | array items =>
      have hsize : sizeOf items < sizeOf node := sizeOf_items_lt h
      exact holds_stmtsFrom _ 0 items
    | _ => exact trivial
  termination_by (sizeOf node, 0)

theorem holds_stmtsFrom (path : Text) (index : Nat) (items : List Json) :
    (stmtsFrom path index items).Holds (Program.Each Mark.PassedAt) := by
  cases items with
  | nil => rw [stmtsFrom]; exact trivial
  | cons j rest =>
    rw [stmtsFrom]
    exact .seq (.map (holds_stmt _ j) fun _ hs _ hrest => ⟨hs, hrest⟩) (holds_stmtsFrom path _ rest)
  termination_by (sizeOf items, 0)

end

end Decode

private theorem Program.holds_check (j : Option Json) :
    (Program.check j).Holds (Program.Each Mark.PassedAt) := by
  fun_cases Program.check j with
  | case2 items => exact Decode.holds_stmtsFrom [] 0 items
  | _ => exact trivial

/-- What is read from a JSON form passes the checks. -/
theorem Program.holds_ofJson? (j : Option Json) :
    (Program.ofJson? j).Holds (Program.Each Mark.ValidAt) := by
  refine (Program.holds_check j).map fun p hp => ?_
  rw [Program.load_unit]
  exact Program.Each.map (f := Location.orUnknown) (fun _ _ h => h) p hp

/-- The tree of every source text, with syntax errors or without, is read back from its JSON form as
it is, and so is every tree that was read from any JSON value. -/
theorem Program.reads_back :
    (∀ source : Text, Program.ofJson?
      (some (Program.toJson (Program.map .ofPosition (parse source).program))) =
        .ok (Program.map .ofPosition (parse source).program)) ∧
    ∀ j p, Program.ofJson? j = .ok p → Program.ofJson? (some (Program.toJson p)) = .ok p := by
  refine ⟨fun source => Program.ofJson?_toJson (each_validAt_parse source), fun j p h => ?_⟩
  have hvalid := Program.holds_ofJson? j
  rw [h] at hvalid
  exact Program.ofJson?_toJson hvalid

/-- A node without a location is written with one, and without its other fields. -/
theorem Program.reads_back_unlocated :
    let node : Json := .object [("comment", .null), ("type", .string "return")]
    let p : Program Location := [.returnStmt .unknown none]
    Program.ofJson? (some (.array [node])) = .ok p ∧
      Program.ofJson? (some (Program.toJson p)) = .ok p := by
  intro node p
  have htype : Decode.typeOf? Decode.StmtType.all Decode.StmtType.text node =
      some .returnStmt := rfl
  have hchecked : Program.check (some (.array [node])) = .ok [.returnStmt none none] := by
    rw [check, Decode.stmtsFrom, Decode.stmtsFrom, Decode.stmt,
      if_pos (show node.isObject = true from rfl), htype]
    rfl
  have hread : Program.ofJson? (some (.array [node])) = .ok p := Program.ofJson?_of_check hchecked
  exact ⟨hread, reads_back.2 _ _ hread⟩

end Lox
