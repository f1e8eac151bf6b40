import Lox.Proofs.Tree.Decoded
import Lox.Proofs.Tree.Schema

/-! Reading accepts exactly the JSON values that fit the schema, and what it reads is written as the
normal form of the value. -/

namespace Lox

open Text

namespace Checked

variable {α β : Type} {c : Checked α} {fits fits' : Prop} {P : α → Prop} {R : β → Prop}

/-- Something is read if and only if the value fits, and then it has the property. -/
structure Meets (c : Checked α) (fits : Prop) (P : α → Prop) : Prop where
  fits_of_ok : ∀ a, c = .ok a → fits
  reads : fits → ∃ a, c = .ok a ∧ P a

theorem Meets.of_fits {a : α} (h : fits) (ha : P a) : (ok a).Meets fits P :=
  ⟨fun _ _ => h, fun _ => ⟨a, rfl, ha⟩⟩

theorem Meets.of_not_fits {first : Issue} {rest : List Issue} (h : ¬ fits) :
    (wrong first rest).Meets fits P :=
  ⟨nofun, fun hfits => absurd hfits h⟩

theorem Meets.congr (h : c.Meets fits P) (hfits : fits ↔ fits') : c.Meets fits' P :=
  ⟨fun a ha => hfits.mp (h.fits_of_ok a ha), fun hf => h.reads (hfits.mpr hf)⟩

theorem Meets.mono {Q : α → Prop} (h : c.Meets fits P) (hP : ∀ a, P a → Q a) : c.Meets fits Q := by
  refine ⟨h.fits_of_ok, fun hfits => ?_⟩
  obtain ⟨a, ha, hPa⟩ := h.reads hfits
  exact ⟨a, ha, hP a hPa⟩

theorem Meets.map {f : α → β} (h : c.Meets fits P) (hf : ∀ a, P a → R (f a)) :
    (f <$> c).Meets fits R := by
  cases c with
  | wrong first rest =>
    exact .of_not_fits fun hfits => by
      obtain ⟨a, ha, -⟩ := h.reads hfits
      cases ha
  | ok a =>
    have hfits : fits := h.fits_of_ok a rfl
    obtain ⟨a', ha', hP⟩ := h.reads hfits
    cases ha'
    exact .of_fits hfits (hf a hP)

/-- Both parts have to fit. -/
theorem Meets.seq {f : Checked (α → β)} (hf : f.Meets fits fun g => ∀ a, P a → R (g a))
    (hc : c.Meets fits' P) : (f <*> c).Meets (fits ∧ fits') R := by
  cases f with
  | wrong first rest =>
    have hnot : ¬ (fits ∧ fits') := fun hboth => by
      obtain ⟨g, hg, -⟩ := hf.reads hboth.1
      cases hg
    cases c with
    | ok a => exact .of_not_fits hnot
    | wrong first' rest' => exact .of_not_fits hnot
  | ok g =>
    have hfits : fits := hf.fits_of_ok g rfl
    obtain ⟨g', hg', hG⟩ := hf.reads hfits
    cases hg'
    exact (hc.map hG).congr ⟨fun hfits' => ⟨hfits, hfits'⟩, fun hboth => hboth.2⟩

end Checked

namespace Schema

variable {node : Json} {key type : Text} {kind : NodeKind} {fields : List Field} {role : Role}

/-- What a node has under the key of a field fits; it may be absent only where it is optional. -/
def Field.FitsIn (f : Field) (node : Json) : Prop :=
  (f.isRequired = true → (node.field? f.key).isSome) ∧
    ∀ part, node.field? f.key = some part → Fits f.role part

/-- The normal form of what a node has under the key of a field. -/
def Field.normal? (f : Field) (node : Json) : Option Json :=
  (node.field? f.key).map (normal f.role)

private theorem fits_node_iff (htype : node.field? "type" = some (.string type))
    (hfields : kind.types.lookup type = some fields) :
    Fits (.node kind) node ↔ ∀ f ∈ fields.concat locationField, f.FitsIn node := by
  constructor
  · intro h
    cases h with
    | node hsame hlookup hrequired hparts =>
      cases htype.symm.trans hsame
      cases hfields.symm.trans hlookup
      intro f hf
      refine ⟨fun hneeded => ?_, hparts f hf⟩
      rw [List.concat_eq_append, List.mem_append, List.mem_singleton] at hf
      rcases hf with hf | rfl
      · exact hrequired f hf hneeded
      · cases hneeded
  · intro h
    have hmem {f : Field} (hf : f ∈ fields) : f ∈ fields.concat locationField := by
      rw [List.concat_eq_append]
      exact List.mem_append_left _ hf
    exact .node htype hfields (fun f hf => (h f (hmem hf)).1) fun f hf => (h f hf).2

private theorem normal_node (htype : node.field? "type" = some (.string type))
    (hfields : kind.types.lookup type = some fields) :
    normal (.node kind) node =
      .object (("type", .string type) ::
        (fields.filterMap fun f => (f.normal? node).map fun j => (f.key, j)).concat
          ("loc", normalLocation (node.field? "loc"))) := by
  rw [normal]
  simp only [htype, hfields, Option.getD_some]
  refine congrArg (fun parts => Json.object (_ :: List.concat parts _)) ?_
  refine List.filterMap_congr fun f _ => ?_
  unfold Field.normal?
  split
  · rename_i hnone
    rw [hnone]
    rfl
  · rename_i part hsome
    rw [hsome]
    rfl

theorem normal_list (item : Role) (items : List Json) :
    normal (.list item) (.array items) = .array (items.map (normal item)) := by
  rw [normal]

@[simp] theorem normal_literal (j : Json) : normal .literal j = j := by rw [normal.eq_def]

@[simp] theorem normal_name (j : Json) : normal .name j = j := by rw [normal.eq_def]

@[simp] theorem normal_choice (choices : List Text) (j : Json) :
    normal (.choice choices) j = j := by
  rw [normal.eq_def]

end Schema

namespace Checked

open Schema

variable {α : Type} {node : Json} {key type : Text} {role : Role} {c : Checked α} {f : α → Json}

/-- A required field is read as what is read from its value. -/
theorem Meets.required (hnone : node.field? key = none → ∃ first rest, c = .wrong first rest)
    (hsome : ∀ j, node.field? key = some j → c.Meets (Fits role j) fun a => normal role j = f a) :
    c.Meets ((Schema.required key role).FitsIn node)
      fun a => (Schema.required key role).normal? node = some (f a) := by
  unfold Field.FitsIn Field.normal? Schema.required
  dsimp only
  cases hj : node.field? key with
  | none =>
    obtain ⟨first, rest, rfl⟩ := hnone hj
    exact .of_not_fits (by simp)
  | some j =>
    have hfits : Fits role j ↔
        (true = true → (some j).isSome) ∧ ∀ part, some j = some part → Fits role part := by
      simp
    apply ((hsome j hj).congr hfits).mono
    intro a ha
    rw [Option.map_some, ha]

/-- An optional field is read as nothing, or as what is read from its value. -/
theorem Meets.optional {c : Checked (Option α)} (hnone : node.field? key = none → c = .ok none)
    (hsome : ∀ j, node.field? key = some j → ∃ part : Checked α, c = some <$> part ∧
      part.Meets (Fits role j) fun a => normal role j = f a) :
    c.Meets ((Schema.optional key role).FitsIn node)
      fun a => (Schema.optional key role).normal? node = a.map f := by
  unfold Field.FitsIn Field.normal? Schema.optional
  dsimp only
  cases hj : node.field? key with
  | none =>
    rw [hnone hj]
    exact .of_fits (by simp) rfl
  | some j =>
    obtain ⟨part, rfl, hpart⟩ := hsome j hj
    have hmeets := hpart.map (f := some) (R := fun a => some (normal role j) = a.map f)
      fun a ha => by rw [ha]; rfl
    exact hmeets.congr (by simp)

end Checked

namespace Decode

open Issue Schema Checked

variable {path : Text} {node : Json} {key : Text}

theorem isObject_of_field? {j part : Json} (h : j.field? key = some part) : j.isObject = true := by
  cases j with
  | object fields => rfl
  | _ => cases h

private theorem meets_coordinate (path : Text) (j : Option Json) :
    (coordinate path j).Meets (∃ x, j = some (.number x) ∧ Number.IsNatural x)
      fun x => j = some (.number x) := by
  have hnot {x : Float} (hx : ¬ (Number.isWhole x = true ∧ Number.isBelowZero x = false)) :
      ¬ ∃ y, some (Json.number x) = some (.number y) ∧ Number.IsNatural y := by
    rintro ⟨y, hy, hnatural⟩
    cases hy
    exact hx ((Number.isNatural_iff x).mp hnatural)
  fun_cases coordinate path j with
  | case1 => exact .of_not_fits (by rintro ⟨x, hx, -⟩; cases hx)
  | case2 x hnan =>
    refine .of_not_fits (hnot fun hcoordinate => ?_)
    rw [Number.isNaN_of_isWhole hcoordinate.1] at hnan
    cases hnan
  | case3 x _ hsign hwhole =>
    exact .of_fits ⟨x, rfl, (Number.isNatural_iff x).mpr ⟨hwhole, hsign⟩⟩ rfl
  | case4 x _ hsign hwhole => exact .of_not_fits (hnot (by simp [hwhole]))
  | case5 x _ hsign hwhole => exact .of_not_fits (hnot (by simp [hsign]))
  | case6 x _ hsign hwhole => exact .of_not_fits (hnot (by simp [hsign]))
  | case7 j hj =>
    refine .of_not_fits ?_
    rintro ⟨x, hx, -⟩
    cases hx
    exact hj x rfl

private theorem fits_location_iff {l : Json} :
    Fits .location l ↔ (∃ x, l.field? "line" = some (.number x) ∧ Number.IsNatural x) ∧
      ∃ x, l.field? "column" = some (.number x) ∧ Number.IsNatural x := by
  constructor
  · intro h
    cases h with
    | location hline hcolumn hx hy => exact ⟨⟨_, hline, hx⟩, _, hcolumn, hy⟩
  · rintro ⟨⟨x, hline, hx⟩, y, hcolumn, hy⟩
    exact .location hline hcolumn hx hy

private theorem meets_location (path : Text) (node : Json) :
    (location path node).Meets (locationField.FitsIn node)
      fun l => normalLocation (node.field? "loc") = (Location.orUnknown l).toJson := by
  unfold location Field.FitsIn locationField Schema.optional
  dsimp only
  cases hl : node.field? "loc" with
  | none => exact .of_fits ⟨nofun, nofun⟩ rfl
  | some l =>
    have hfits : ((false = true → (some l).isSome) ∧ ∀ part, some l = some part →
        Fits .location part) ↔ Fits .location l := by simp
    rw [hfits, fits_location_iff]
    dsimp only
    split
    · refine .seq (.map (meets_coordinate ..) ?_) (meets_coordinate ..)
      intro x hx y hy
      simp [normalLocation, hx, hy, Location.toJson, Location.orUnknown]
    · rename_i hobject
      refine .of_not_fits ?_
      rintro ⟨⟨x, hline, -⟩, -⟩
      exact hobject (isObject_of_field? hline)

theorem meets_identifier (path : Text) (j : Json) :
    (identifier path (some j)).Meets (Fits .name j) fun x => normal .name j = .string x := by
  have hname {x : Name} (h : Fits .name (.string x)) : isIdentifier x = true := by
    cases h
    assumption
  cases j with
  | string x =>
    rw [identifier]
    split
    · rename_i hx
      exact .of_fits (.name hx) (normal_name _)
    · rename_i hx
      exact .of_not_fits fun hfits => hx (hname hfits)
  | _ =>
    apply Meets.of_not_fits
    intro hfits
    cases hfits

theorem meets_identifierPart (path : Text) (node : Json) (key : Text) :
    (identifier path (node.field? key)).Meets ((required key .name).FitsIn node)
      fun x => (required key .name).normal? node = some (.string x) := by
  refine .required (fun hnone => ?_) fun j hj => ?_
  · rw [hnone]
    exact ⟨_, _, rfl⟩
  · rw [hj]
    exact meets_identifier path j

private theorem meets_identifiersFrom (path : Text) (index : Nat) (items : List Json) :
    (identifiersFrom path index items).Meets (∀ i ∈ items, Fits .name i)
      fun xs => items.map (normal .name) = xs.map .string := by
  induction items generalizing index with
  | nil => exact .of_fits nofun rfl
  | cons j rest ih =>
    rw [List.forall_mem_cons, identifiersFrom]
    refine .seq (.map (meets_identifier ..) fun x hx xs hxs => ?_) (ih _)
    rw [List.map_cons, List.map_cons, hx, hxs]

theorem fits_list_iff {item : Role} {items : List Json} :
    Fits (.list item) (.array items) ↔ ∀ i ∈ items, Fits item i := by
  constructor
  · intro h
    cases h
    assumption
  · exact .list

private theorem meets_identifiersPart (path : Text) (node : Json) (key : Text) :
    (identifiers path (node.field? key)).Meets ((required key (.list .name)).FitsIn node)
      fun xs => (required key (.list .name)).normal? node = some (namesJson xs) := by
  refine .required (fun hnone => ?_) fun j hj => ?_
  · rw [hnone]
    exact ⟨_, _, rfl⟩
  · rw [hj]
    cases j with
    | array items =>
      rw [fits_list_iff, normal_list, identifiers]
      exact (meets_identifiersFrom path 0 items).mono fun xs hxs => by rw [hxs, namesJson]
    | _ => exact .of_not_fits nofun

theorem meets_choicePart {α : Type} (choices : List α) (text : α → Text) (path : Text)
    (node : Json) (key : Text) :
    (choice path choices text (node.field? key)).Meets
      ((required key (.choice (choices.map text))).FitsIn node)
      fun a =>
        (required key (.choice (choices.map text))).normal? node = some (.string (text a)) := by
  refine .required (fun hnone => ?_) fun j hj => ?_
  · rw [hnone]
    exact ⟨_, _, rfl⟩
  · rw [hj]
    cases j with
    | string t =>
      rw [choice]
      split
      · rename_i a ha
        have htext : text a = t := by simpa using List.find?_some ha
        have hmem : t ∈ choices.map text :=
          List.mem_map.mpr ⟨a, List.mem_of_find?_eq_some ha, htext⟩
        exact .of_fits (.choice hmem) (by rw [normal_choice, htext])
      · rename_i hnone
        refine .of_not_fits fun hfits => ?_
        cases hfits with
        | choice hmem =>
          obtain ⟨a, ha, rfl⟩ := List.mem_map.mp hmem
          exact absurd (List.find?_eq_none.mp hnone a ha) (by simp)
    | _ => exact .of_not_fits nofun

private theorem meets_literalPart (path : Text) (node : Json) :
    (literal path (node.field? "value")).Meets ((required "value" .literal).FitsIn node)
      fun v => (required "value" .literal).normal? node = some v.toJson := by
  refine .required (fun hnone => ?_) fun j hj => ?_
  · rw [hnone]
    exact ⟨_, _, rfl⟩
  · rw [hj, normal_literal]
    cases j with
    | number x =>
      cases hx : Number.isNaN x with
      | false => simpa [literal, hx] using .of_fits (.number hx) rfl
      | true =>
        rw [literal, if_pos hx]
        refine .of_not_fits fun hfits => ?_
        cases hfits with
        | number hnumber => cases hx.symm.trans hnumber
    | string t => exact .of_fits (.string t) rfl
    | bool b => exact .of_fits (.bool b) rfl
    | null => exact .of_fits .null rfl
    | array | object => exact .of_not_fits fun hfits => by cases hfits

/-- The fields of a node have been read, and its location is read last. -/
theorem meets_node {α : Type} {toJson : α → Json} {kind : NodeKind} {type : Text}
    {fields : List Field} (htype : node.field? "type" = some (.string type))
    (hfields : kind.types.lookup type = some fields) {c : Checked (Option Location → α)}
    (hc : c.Meets (∀ f ∈ fields, f.FitsIn node) fun build => ∀ l, toJson (build l) =
      nodeJson type (fields.filterMap fun f => (f.normal? node).map fun j => (f.key, j))
        (Location.orUnknown l)) :
    (c <*> location path node).Meets (Fits (.node kind) node)
      fun a => normal (.node kind) node = toJson a := by
  have hboth := Meets.seq (R := fun a => normal (.node kind) node = toJson a)
    (hc.mono fun build hbuild l hl => ?_) (meets_location path node)
  · refine hboth.congr ?_
    rw [fits_node_iff htype hfields, List.concat_eq_append, List.forall_mem_append,
      List.forall_mem_singleton]
  · rw [normal_node htype hfields, hbuild l, nodeJson, hl]

theorem field?_of_typeOf? {α : Type} {types : List α} {text : α → Text} {a : α}
    (h : typeOf? types text node = some a) : node.field? "type" = some (.string (text a)) := by
  unfold typeOf? at h
  split at h
  · rename_i t ht
    have htext : text a = t := by simpa using List.find?_some h
    rw [ht, htext]
  · cases h

/-- A node with none of the types fits nowhere. -/
theorem not_fits_of_typeOf? {α : Type} (types : List α) (text : α → Text) {kind : NodeKind}
    (htypes : kind.types.map (·.1) = types.map text) (h : typeOf? types text node = none) :
    ¬ Fits (.node kind) node := by
  intro hfits
  cases hfits with
  | @node _ _ type fields htype hfields _ _ =>
    unfold typeOf? at h
    rw [htype] at h
    have hmem : type ∈ types.map text := by
      rw [← htypes]
      exact List.mem_map.mpr ⟨_, mem_of_lookup hfields, rfl⟩
    obtain ⟨a, ha, rfl⟩ := List.mem_map.mp hmem
    exact absurd (List.find?_eq_none.mp h a ha) (by simp)

theorem not_fits_of_not_object {kind : NodeKind} (h : ¬ node.isObject = true) :
    ¬ Fits (.node kind) node := by
  intro hfits
  cases hfits with
  | node htype => exact h (isObject_of_field? htype)

/-- A list is expected, and something else is there. -/
theorem not_fits_list {item : Role} {j : Json} (h : ¬ ∃ items, j = .array items) :
    ¬ Fits (.list item) j := by
  intro hfits
  cases hfits with
  | list => exact h ⟨_, rfl⟩

section Parts

variable {j : Json}

private theorem exprPart_of_none (h : node.field? key = none) :
    exprPart path node key = .fail (pathTo path key) .missing := by
  rw [exprPart_eq, h]

private theorem exprsPart_of_none (h : node.field? key = none) :
    exprsPart path node key = .fail (pathTo path key) .missing := by
  rw [exprsPart_eq, h]

private theorem exprsPart_of_other (h : node.field? key = some j)
    (hj : ¬ ∃ items, j = .array items) :
    exprsPart path node key = expected (pathTo path key) "array" j := by
  rw [exprsPart_eq, h]
  cases j with
  | array items => exact absurd ⟨items, rfl⟩ hj
  | _ => rfl

private theorem stmtPart_of_none (h : node.field? key = none) :
    stmtPart path node key = .fail (pathTo path key) .missing := by
  rw [stmtPart_eq, h]

private theorem stmtsPart_of_none (h : node.field? key = none) :
    stmtsPart path node key = .fail (pathTo path key) .missing := by
  rw [stmtsPart_eq, h]

private theorem stmtsPart_of_other (h : node.field? key = some j)
    (hj : ¬ ∃ items, j = .array items) :
    stmtsPart path node key = expected (pathTo path key) "array" j := by
  rw [stmtsPart_eq, h]
  cases j with
  | array items => exact absurd ⟨items, rfl⟩ hj
  | _ => rfl

end Parts

section Operators

variable (path : Text) (node : Json)

private theorem meets_binaryOperator :
    (choice path BinaryOp.all BinaryOp.sign (node.field? "operator")).Meets
      ((required "operator" (.choice binaryOperators)).FitsIn node) fun op =>
        (required "operator" (.choice binaryOperators)).normal? node = some (.string op.sign) :=
  meets_choicePart BinaryOp.all BinaryOp.sign path node "operator"

private theorem meets_unaryOperator :
    (choice path UnaryOp.all UnaryOp.sign (node.field? "operator")).Meets
      ((required "operator" (.choice unaryOperators)).FitsIn node) fun op =>
        (required "operator" (.choice unaryOperators)).normal? node = some (.string op.sign) :=
  meets_choicePart UnaryOp.all UnaryOp.sign path node "operator"

private theorem meets_logicalOperator :
    (choice path LogicalOp.all LogicalOp.sign (node.field? "operator")).Meets
      ((required "operator" (.choice logicalOperators)).FitsIn node) fun op =>
        (required "operator" (.choice logicalOperators)).normal? node = some (.string op.sign) :=
  meets_choicePart LogicalOp.all LogicalOp.sign path node "operator"

end Operators

mutual

/-- What fits as an expression is read as one. -/
theorem meets_expr (path : Text) (node : Json) :
    (expr path node).Meets (Fits (.node .expression) node)
      fun e => normal (.node .expression) node = (e.map Location.orUnknown).toJson := by
  rw [expr]
  by_cases hobject : node.isObject = true
  case neg =>
    rw [if_neg hobject]
    exact .of_not_fits (not_fits_of_not_object hobject)
  rw [if_pos hobject]
  cases htype : typeOf? ExprType.all ExprType.text node with
  | none => exact .of_not_fits (not_fits_of_typeOf? ExprType.all ExprType.text rfl htype)
  | some type =>
    have hfield := field?_of_typeOf? htype
    cases type with
    | binary =>
      have hleft := meets_exprPart path node "left"
      have hright := meets_exprPart path node "right"
      refine meets_node hfield rfl
        (.congr (.seq (.seq (.map hleft ?_) (meets_binaryOperator ..)) hright) ?_)
      · intro l hl op hop r hr n
        simp [Expr.map, Expr.toJson, ExprType.text, hl, hop, hr]
      · simp [and_assoc]
    | grouping =>
      refine meets_node hfield rfl (.congr (.map (meets_exprPart path node "expression") ?_) ?_)
      · intro e he n
        simp [Expr.map, Expr.toJson, ExprType.text, he]
      · simp
    | literal =>
      refine meets_node hfield rfl (.congr (.map (meets_literalPart ..) ?_) ?_)
      · intro v hv n
        simp [Expr.map, Expr.toJson, ExprType.text, hv]
      · simp
    | unary =>
      have hoperand := meets_exprPart path node "operand"
      refine meets_node hfield rfl (.congr (.seq (.map (meets_unaryOperator ..) ?_) hoperand) ?_)
      · intro op hop e he n
        simp [Expr.map, Expr.toJson, ExprType.text, hop, he]
      · simp
    | reference =>
      refine meets_node hfield rfl (.congr (.map (meets_identifierPart ..) ?_) ?_)
      · intro x hx n
        simp [Expr.map, Expr.toJson, ExprType.text, hx]
      · simp
    | assign =>
      have hvalue := meets_exprPart path node "value"
      refine meets_node hfield rfl (.congr (.seq (.map (meets_identifierPart ..) ?_) hvalue) ?_)
      · intro x hx e he n
        simp [Expr.map, Expr.toJson, ExprType.text, hx, he]
      · simp
    | logical =>
      have hleft := meets_exprPart path node "left"
      have hright := meets_exprPart path node "right"
      refine meets_node hfield rfl
        (.congr (.seq (.seq (.map hleft ?_) (meets_logicalOperator ..)) hright) ?_)
      · intro l hl op hop r hr n
        simp [Expr.map, Expr.toJson, ExprType.text, hl, hop, hr]
      · simp [and_assoc]
    | call =>
      have hcallee := meets_exprPart path node "callee"
      have hargs := meets_exprsPart path node "args"
      refine meets_node hfield rfl (.congr (.seq (.map hcallee ?_) hargs) ?_)
      · intro c hc args hargs n
        simp [Expr.map, Expr.toJson, ExprType.text, hc, hargs]
      · simp
  termination_by (sizeOf node, 1)

theorem meets_exprPart (path : Text) (node : Json) (key : Text) :
    (exprPart path node key).Meets ((required key (.node .expression)).FitsIn node)
      fun e => (required key (.node .expression)).normal? node =
        some (e.map Location.orUnknown).toJson := by
  refine .required (fun hnone => ?_) fun j hj => ?_
  · exact ⟨_, _, exprPart_of_none hnone⟩
  · have hsize : sizeOf j < sizeOf node := Json.sizeOf_field?_lt hj
    rw [exprPart_of_field hj]
    exact meets_expr _ j
  termination_by (sizeOf node, 0)

theorem meets_exprsPart (path : Text) (node : Json) (key : Text) :
    (exprsPart path node key).Meets ((required key (.list (.node .expression))).FitsIn node)
      fun es => (required key (.list (.node .expression))).normal? node =
        some (.array (Expr.allToJson (Expr.mapAll Location.orUnknown es))) := by
  refine .required (fun hnone => ?_) fun j hj => ?_
  · exact ⟨_, _, exprsPart_of_none hnone⟩
  · by_cases harray : ∃ items, j = .array items
    · obtain ⟨items, rfl⟩ := harray
      have hsize : sizeOf items < sizeOf node := sizeOf_items_lt hj
      rw [exprsPart_of_field hj, fits_list_iff, normal_list]
      exact (meets_exprsFrom _ 0 items).mono fun es hes => by rw [hes]
    · rw [exprsPart_of_other hj harray]
      exact .of_not_fits (not_fits_list harray)
  termination_by (sizeOf node, 0)

theorem meets_exprsFrom (path : Text) (index : Nat) (items : List Json) :
    (exprsFrom path index items).Meets (∀ i ∈ items, Fits (.node .expression) i)
      fun es => items.map (normal (.node .expression)) =
        Expr.allToJson (Expr.mapAll Location.orUnknown es) := by
  cases items with
  | nil => rw [exprsFrom]; exact .of_fits nofun rfl
  | cons j rest =>
    rw [exprsFrom, List.forall_mem_cons]
    refine .seq (.map (meets_expr _ j) fun e he es hes => ?_) (meets_exprsFrom path _ rest)
    rw [List.map_cons, he, hes, Expr.mapAll, Expr.allToJson]
  termination_by (sizeOf items, 0)

end

private theorem meets_optionalExpr (path : Text) (node : Json) (key : Text) :
    (optionalExpr path node key).Meets ((optional key (.node .expression)).FitsIn node)
      fun e => (optional key (.node .expression)).normal? node =
        e.map fun e => (e.map Location.orUnknown).toJson :=
  .optional optionalExpr_of_none fun j hj => ⟨_, optionalExpr_of_field hj, meets_expr _ j⟩

mutual

/-- What fits as a statement is read as one. -/
theorem meets_stmt (path : Text) (node : Json) :
    (stmt path node).Meets (Fits (.node .statement) node)
      fun s => normal (.node .statement) node = (s.map Location.orUnknown).toJson := by
  rw [stmt]
  by_cases hobject : node.isObject = true
  case neg =>
    rw [if_neg hobject]
    exact .of_not_fits (not_fits_of_not_object hobject)
  rw [if_pos hobject]
  cases htype : typeOf? StmtType.all StmtType.text node with
  | none => exact .of_not_fits (not_fits_of_typeOf? StmtType.all StmtType.text rfl htype)
  | some type =>
    have hfield := field?_of_typeOf? htype
    cases type with
    | expression | print =>
      refine meets_node hfield rfl (.congr (.map (meets_exprPart path node "expression") ?_) ?_)
      · intro e he n
        simp [Stmt.map, Stmt.toJson, StmtType.text, he]
      · simp
    | varDecl =>
      have hinitializer := meets_optionalExpr path node "initializer"
      refine meets_node hfield rfl
        (.congr (.seq (.map (meets_identifierPart ..) ?_) hinitializer) ?_)
      · intro x hx e he n
        cases e <;> simp [Stmt.map, Stmt.toJson, StmtType.text, optionalPart, hx, he]
      · simp
    | block =>
      refine meets_node hfield rfl (.congr (.map (meets_stmtsPart path node "statements") ?_) ?_)
      · intro body hbody n
        simp [Stmt.map, Stmt.toJson, StmtType.text, hbody]
      · simp
    | ifElse =>
      have hcondition := meets_exprPart path node "condition"
      have hthen := meets_stmtPart path node "thenBranch"
      have helse := meets_optionalStmt path node "elseBranch"
      refine meets_node hfield rfl (.congr (.seq (.seq (.map hcondition ?_) hthen) helse) ?_)
      · intro c hc t ht e he n
        cases e <;> simp [Stmt.map, Stmt.toJson, StmtType.text, hc, ht, he]
      · simp [and_assoc]
    | whileLoop =>
      have hcondition := meets_exprPart path node "condition"
      have hbody := meets_stmtPart path node "body"
      refine meets_node hfield rfl (.congr (.seq (.map hcondition ?_) hbody) ?_)
      · intro c hc body hbody n
        simp [Stmt.map, Stmt.toJson, StmtType.text, hc, hbody]
      · simp
    | funDecl =>
      have hparams := meets_identifiersPart (pathTo path "params") node "params"
      have hbody := meets_stmtsPart path node "body"
      refine meets_node hfield rfl
        (.congr (.seq (.seq (.map (meets_identifierPart ..) ?_) hparams) hbody) ?_)
      · intro x hx params hparams body hbody n
        simp [Stmt.map, Stmt.toJson, StmtType.text, hx, hparams, hbody]
      · simp [and_assoc]
    | returnStmt =>
      refine meets_node hfield rfl (.congr (.map (meets_optionalExpr path node "value") ?_) ?_)
      · intro e he n
        cases e <;> simp [Stmt.map, Stmt.toJson, StmtType.text, optionalPart, he]
      · simp
  termination_by (sizeOf node, 1)

theorem meets_stmtPart (path : Text) (node : Json) (key : Text) :
    (stmtPart path node key).Meets ((required key (.node .statement)).FitsIn node)
      fun s => (required key (.node .statement)).normal? node =
        some (s.map Location.orUnknown).toJson := by
  refine .required (fun hnone => ?_) fun j hj => ?_
  · exact ⟨_, _, stmtPart_of_none hnone⟩
  · have hsize : sizeOf j < sizeOf node := Json.sizeOf_field?_lt hj
    rw [stmtPart_of_field hj]
    exact meets_stmt _ j
  termination_by (sizeOf node, 0)

theorem meets_optionalStmt (path : Text) (node : Json) (key : Text) :
    (optionalStmt path node key).Meets ((optional key (.node .statement)).FitsIn node)
      fun s => (optional key (.node .statement)).normal? node =
        s.map fun s => (s.map Location.orUnknown).toJson := by
  refine .optional optionalStmt_of_none fun j hj => ⟨_, optionalStmt_of_field hj, ?_⟩
  have hsize : sizeOf j < sizeOf node := Json.sizeOf_field?_lt hj
  exact meets_stmt _ j
  termination_by (sizeOf node, 0)

theorem meets_stmtsPart (path : Text) (node : Json) (key : Text) :
    (stmtsPart path node key).Meets ((required key (.list (.node .statement))).FitsIn node)
      fun p => (required key (.list (.node .statement))).normal? node =
        some (.array (Program.itemsToJson (Program.map Location.orUnknown p))) := by
  refine .required (fun hnone => ?_) fun j hj => ?_
  · exact ⟨_, _, stmtsPart_of_none hnone⟩
  · by_cases harray : ∃ items, j = .array items
    · obtain ⟨items, rfl⟩ := harray
      have hsize : sizeOf items < sizeOf node := sizeOf_items_lt hj
      rw [stmtsPart_of_field hj, fits_list_iff, normal_list]
      exact (meets_stmtsFrom _ 0 items).mono fun p hp => by rw [hp]
    · rw [stmtsPart_of_other hj harray]
      exact .of_not_fits (not_fits_list harray)
  termination_by (sizeOf node, 0)

theorem meets_stmtsFrom (path : Text) (index : Nat) (items : List Json) :
    (stmtsFrom path index items).Meets (∀ i ∈ items, Fits (.node .statement) i)
      fun p => items.map (normal (.node .statement)) =
        Program.itemsToJson (Program.map Location.orUnknown p) := by
  cases items with
  | nil => rw [stmtsFrom]; exact .of_fits nofun rfl
  | cons j rest =>
    rw [stmtsFrom, List.forall_mem_cons]
    refine .seq (.map (meets_stmt _ j) fun s hs p hp => ?_) (meets_stmtsFrom path _ rest)
    rw [List.map_cons, hs, hp, Program.map, Program.itemsToJson]
  termination_by (sizeOf items, 0)

end

end Decode

open Schema

private theorem Program.meets_check (j : Json) : (Program.check (some j)).Meets (Fits program j)
    fun p => normal program j = (Program.map Location.orUnknown p).toJson := by
  unfold Schema.program
  by_cases harray : ∃ items, j = .array items
  · obtain ⟨items, rfl⟩ := harray
    rw [Decode.fits_list_iff, normal_list]
    exact (Decode.meets_stmtsFrom [] 0 items).mono fun p hp => by rw [hp, Program.toJson]
  · cases j with
    | array items => exact absurd ⟨items, rfl⟩ harray
    | _ => exact .of_not_fits (Decode.not_fits_list harray)

private theorem Program.meets_ofJson? (j : Json) :
    (Program.ofJson? (some j)).Meets (Fits program j) fun p => normal program j = p.toJson :=
  (Program.meets_check j).map fun p hp => by rw [hp, Program.load_unit]

/-- A program is read from a JSON value if and only if the value fits the schema; otherwise there is
something wrong with it. What is read is written as the normal form of the value, and this form is
read as the same program again, so that it is written alike. -/
theorem Program.ofJson?_accepts (j : Json) :
    ((∃ p, Program.ofJson? (some j) = .ok p) ↔ Fits program j) ∧
      (¬ Fits program j → ∃ first rest, Program.ofJson? (some j) = .wrong first rest) ∧
        ∀ p, Program.ofJson? (some j) = .ok p → p.toJson = normal program j ∧
          Program.ofJson? (some p.toJson) = .ok p := by
  have hmeets := Program.meets_ofJson? j
  refine ⟨⟨fun ⟨p, hp⟩ => hmeets.fits_of_ok p hp, fun hfits => ?_⟩, fun hnot => ?_, fun p hp => ?_⟩
  · obtain ⟨p, hp, -⟩ := hmeets.reads hfits
    exact ⟨p, hp⟩
  · cases hread : Program.ofJson? (some j) with
    | ok p => exact absurd (hmeets.fits_of_ok p hread) hnot
    | wrong first rest => exact ⟨first, rest, rfl⟩
  · obtain ⟨p', hp', hnormal⟩ := hmeets.reads (hmeets.fits_of_ok p hp)
    cases hp.symm.trans hp'
    have hvalid := Program.holds_ofJson? (some j)
    rw [hp] at hvalid
    exact ⟨hnormal.symm, Program.ofJson?_toJson hvalid⟩

end Lox
