import Lox.Proofs.Json.Number
import Lox.Proofs.Json.Quoted

/-! JSON values are read back from the text that they are written as, on one line or indented. -/

namespace Lox.Json

open Text

section

mutual

/-- The format has a text for the value: its numbers can be told, and no object has two fields with
one key. -/
def Expressible : Json → Prop
  | .null | .bool _ | .string _ => True
  | .number x => Number.Expressible x
  | .array items => AllExpressible items
  | .object fields => (fields.map Prod.fst).Nodup ∧ FieldsExpressible fields

def AllExpressible : List Json → Prop
  | [] => True
  | j :: items => j.Expressible ∧ AllExpressible items

def FieldsExpressible : List (Text × Json) → Prop
  | [] => True
  | (_, j) :: fields => j.Expressible ∧ FieldsExpressible fields

end

end

section Spaces

variable (indent : Option Nat) (level : Nat)

private theorem skipSpace_of_stops {t : Text} (h : Stops isSpace t) : skipSpace t = t :=
  dropWhile_of_stops h

theorem skipSpace_cons {u : CodeUnit} (h : isSpace u = false) (t : Text) :
    skipSpace (u :: t) = u :: t :=
  skipSpace_of_stops (stops_cons h t)

theorem skipSpace_lineBreak (t : Text) : skipSpace (lineBreak indent level ++ t) = skipSpace t := by
  apply List.dropWhile_append_of_pos
  cases indent with
  | none => nofun
  | some width =>
    intro u hu
    rcases List.mem_cons.mp hu with rfl | hu
    · decide
    · rw [(List.mem_replicate.mp hu).2]
      decide

private theorem colon_eq :
    ∃ s, colon indent = unit ':' :: s ∧ ∀ t, skipSpace (s ++ t) = skipSpace t := by
  cases indent with
  | none => exact ⟨[], rfl, fun t => rfl⟩
  | some width =>
    exact ⟨[unit ' '], rfl, fun t =>
      List.dropWhile_append_of_pos (List.forall_mem_singleton.mpr (by decide))⟩

/-- After a value comes nothing that a number could go on with. -/
theorem stops_lineBreak {u : CodeUnit} (hu : continues u = false) (t : Text) :
    Stops continues (lineBreak indent level ++ (u :: t)) := by
  cases indent with
  | none => exact stops_cons hu t
  | some width => exact stops_cons (by decide) _

theorem stops_writeItems (rest : Text) (items : List Json) :
    Stops continues (writeItems indent level rest items) := by
  cases items with
  | nil => rw [writeItems]; exact stops_lineBreak indent level (by decide) rest
  | cons item items => rw [writeItems]; exact stops_cons (by decide) _

theorem stops_writeFields (rest : Text) (fields : List (Text × Json)) :
    Stops continues (writeFields indent level rest fields) := by
  cases fields with
  | nil => rw [writeFields]; exact stops_lineBreak indent level (by decide) rest
  | cons field fields => rw [writeFields]; exact stops_cons (by decide) _

end Spaces

section Head

/-- The first units of values: none is a space, and none ends an array or an object. -/
def startsValue (u : CodeUnit) : Bool :=
  isDigit u || [unit '-', unit '"', unit '[', unit '\x7b', unit 'n', unit 't', unit 'f'].contains u

private theorem isSpace_of_startsValue {u : CodeUnit} (h : startsValue u = true) :
    isSpace u = false := by
  by_contra hspace
  simp only [isSpace, Bool.not_eq_false, Bool.or_eq_true, beq_iff_eq] at hspace
  rcases hspace with ((rfl | rfl) | rfl) | rfl <;> exact absurd h (by decide)

variable (indent : Option Nat) (level : Nat) {rest : Text}

theorem startsValue_writeOnto {j : Json} (hj : j.Expressible) (hrest : Stops continues rest) :
    ∃ u t, writeOnto indent level rest j = u :: t ∧ startsValue u = true := by
  cases j with
  | null => exact ⟨_, _, rfl, by decide⟩
  | bool b => cases b <;> exact ⟨_, _, rfl, by decide⟩
  | string s => exact ⟨_, _, rfl, by decide⟩
  | number x =>
    obtain ⟨u, t, htext, hu⟩ := exists_head_writeNumber hj hrest
    refine ⟨u, t, by rw [writeOnto, htext], ?_⟩
    rcases Bool.or_eq_true_iff.mp hu with hu | hu
    · rw [startsValue, hu]
      rfl
    · rw [of_decide_eq_true hu]
      decide
  | array items => cases items <;> exact ⟨_, _, rfl, by decide⟩
  | object fields => cases fields <;> exact ⟨_, _, rfl, by decide⟩

theorem skipSpace_writeOnto {j : Json} (hj : j.Expressible) (hrest : Stops continues rest) :
    skipSpace (writeOnto indent level rest j) = writeOnto indent level rest j := by
  obtain ⟨u, t, htext, hu⟩ := startsValue_writeOnto indent level hj hrest
  rw [htext, skipSpace_cons (isSpace_of_startsValue hu)]

end Head

section Steps

variable {depth : Nat} {t tail rest more : Text} {j : Json} (read : List Json)

private theorem readItems_last (hvalue : readValue depth t = .ok (j, tail))
    (htail : skipSpace tail = unit ']' :: rest) :
    readItems (depth + 1) read t = .ok (.array (j :: read).reverse, rest) := by
  rw [readItems, hvalue]
  dsimp only
  rw [htail]
  rfl

private theorem readItems_more (hvalue : readValue depth t = .ok (j, tail))
    (htail : skipSpace tail = unit ',' :: more) :
    readItems (depth + 1) read t = readItems depth (j :: read) (skipSpace more) := by
  rw [readItems, hvalue]
  dsimp only
  rw [htail]
  rfl

variable (fields : List (Text × Json)) (missing : Flaw) (key : Text) (indent : Option Nat)

/-- A member is read up to what follows its value. -/
theorem readMembers_member (hvalue : readValue depth (skipSpace t) = .ok (j, tail)) :
    readMembers (depth + 1) missing fields (writeString key ++ (colon indent ++ t)) =
      match skipSpace tail with
      | u :: rest =>
        if u = unit ',' then readMembers depth .key (setField key j fields) (skipSpace rest)
        else if u = unit '\x7d' then .ok (.object (setField key j fields), rest)
        else flawed .commaOrBrace (u :: rest)
      | [] => flawed .commaOrBrace [] := by
  obtain ⟨spaces, hcolon, hspaces⟩ := colon_eq indent
  have htext : writeString key ++ (colon indent ++ t) =
      unit '"' :: (writeUnits key ++ unit '"' :: (unit ':' :: (spaces ++ t))) := by
    rw [writeString, hcolon, List.append_assoc]
    rfl
  rw [htext, readMembers, if_neg (not_not.mpr rfl), stringTail_writeUnits]
  dsimp only
  rw [skipSpace_cons (by decide)]
  dsimp only
  rw [if_neg (not_not.mpr rfl), hspaces, hvalue]
  rfl

private theorem readMembers_last (hvalue : readValue depth (skipSpace t) = .ok (j, tail))
    (htail : skipSpace tail = unit '\x7d' :: rest) :
    readMembers (depth + 1) missing fields (writeString key ++ (colon indent ++ t)) =
      .ok (.object (setField key j fields), rest) := by
  rw [readMembers_member fields missing key indent hvalue, htail]
  rfl

private theorem readMembers_more (hvalue : readValue depth (skipSpace t) = .ok (j, tail))
    (htail : skipSpace tail = unit ',' :: more) :
    readMembers (depth + 1) missing fields (writeString key ++ (colon indent ++ t)) =
      readMembers depth .key (setField key j fields) (skipSpace more) := by
  rw [readMembers_member fields missing key indent hvalue, htail]
  rfl

private theorem setField_of_notMem {fields : List (Text × Json)} (h : key ∉ fields.map Prod.fst)
    (j : Json) : setField key j fields = fields ++ [(key, j)] := by
  induction fields with
  | nil => rfl
  | cons field fields ih =>
    rw [List.map_cons, List.mem_cons, not_or] at h
    rw [setField, if_neg (Ne.symm h.1), ih h.2]
    rfl

end Steps

section ReadBack

variable (indent : Option Nat)

/-- However deep it is nested and whatever follows it, the value is read back from its text. -/
def ReadsBack (j : Json) : Prop :=
  ∀ (level depth : Nat) (rest : Text), Stops continues rest →
    2 * (writeOnto indent level rest j).length ≤ depth →
      readValue depth (writeOnto indent level rest j) = .ok (j, rest)

mutual

/-- What follows a value is the end of the whole text. -/
theorem suffix_writeOnto (level : Nat) (rest : Text) :
    ∀ j : Json, rest <:+ writeOnto indent level rest j
  | .null | .bool true | .bool false | .number _ | .string _ | .array [] | .object [] => by
    rw [writeOnto]
    exact List.suffix_append _ rest
  | .array (item :: items) => by
    rw [writeOnto]
    exact (suffix_writeItems level rest items).trans <| (suffix_writeOnto _ _ item).trans <|
      (List.suffix_append _ _).trans (List.suffix_append _ _)
  | .object ((_, value) :: fields) => by
    rw [writeOnto]
    exact (suffix_writeFields level rest fields).trans <| (suffix_writeOnto _ _ value).trans <|
      (List.suffix_append _ _).trans <| (List.suffix_append _ _).trans <|
        (List.suffix_append _ _).trans (List.suffix_append _ _)

theorem suffix_writeItems (level : Nat) (rest : Text) :
    ∀ items : List Json, rest <:+ writeItems indent level rest items
  | [] => by
    rw [writeItems]
    exact (List.suffix_append _ rest).trans (List.suffix_append _ _)
  | item :: items => by
    rw [writeItems]
    exact (suffix_writeItems level rest items).trans <| (suffix_writeOnto _ _ item).trans <|
      (List.suffix_append _ _).trans (List.suffix_append _ _)

theorem suffix_writeFields (level : Nat) (rest : Text) :
    ∀ fields : List (Text × Json), rest <:+ writeFields indent level rest fields
  | [] => by
    rw [writeFields]
    exact (List.suffix_append _ rest).trans (List.suffix_append _ _)
  | (_, value) :: fields => by
    rw [writeFields]
    exact (suffix_writeFields level rest fields).trans <| (suffix_writeOnto _ _ value).trans <|
      (List.suffix_append _ _).trans <| (List.suffix_append _ _).trans <|
        (List.suffix_append _ _).trans (List.suffix_append _ _)

end

theorem exists_depth {t : Text} (ht : t ≠ []) {depth : Nat} (h : 2 * t.length ≤ depth) :
    ∃ d, depth = d + 1 := by
  have hpos := List.length_pos_iff.mpr ht
  exact ⟨depth - 1, by omega⟩

private theorem readsBack_number {x : Float} (hx : Number.Expressible x) :
    ReadsBack indent (.number x) := by
  intro level depth rest hrest hdepth
  obtain ⟨u, t, htext, hu⟩ := exists_head_writeNumber hx hrest
  have hread := readNumber_writeNumber hx hrest
  rw [writeOnto] at hdepth ⊢
  rw [htext] at hread hdepth ⊢
  obtain ⟨d, rfl⟩ := exists_depth (List.cons_ne_nil _ _) hdepth
  have hother {v : CodeUnit} (hv : (isDigit v || v = unit '-') = false) : u ≠ v := by
    rintro rfl
    exact Bool.false_ne_true (hv.symm.trans hu)
  rw [readValue, if_neg (hother (by decide)), if_neg (hother (by decide)),
    if_neg (hother (by decide)), if_pos hu, hread]
  rfl

private theorem readsBack_string (s : Text) : ReadsBack indent (.string s) := by
  intro level depth rest _ hdepth
  obtain ⟨d, rfl⟩ := exists_depth (List.cons_ne_nil _ _) hdepth
  have htext : writeOnto indent level rest (.string s) =
      unit '"' :: (writeUnits s ++ unit '"' :: rest) := by
    rw [writeOnto, writeString, List.append_assoc]
    rfl
  rw [htext, readValue, if_neg (by decide), if_neg (by decide), if_pos rfl,
    stringTail_writeUnits]
  rfl

mutual

theorem readsBack : ∀ j : Json, j.Expressible → ReadsBack indent j
  | .null, _ | .bool true, _ | .bool false, _ | .array [], _ | .object [], _ => by
    intro level depth rest _ hdepth
    obtain ⟨d, rfl⟩ := exists_depth (List.cons_ne_nil _ _) hdepth
    rfl
  | .number x, hx => readsBack_number indent hx
  | .string s, _ => readsBack_string indent s
  | .array (item :: items), h => by
    intro level depth rest hrest hdepth
    have htext : writeOnto indent level rest (.array (item :: items)) =
        unit '[' :: (lineBreak indent (level + 1) ++
          writeOnto indent (level + 1) (writeItems indent level rest items) item) := by
      rw [writeOnto]
      rfl
    have hstops := stops_writeItems indent level rest items
    rw [htext, List.length_cons, List.length_append] at hdepth
    obtain ⟨d, rfl⟩ : ∃ d, depth = d + 2 := ⟨depth - 2, by omega⟩
    have hsuffix := (suffix_writeOnto indent (level + 1) (writeItems indent level rest items)
      item).length_le
    have hhead : (writeOnto indent (level + 1) (writeItems indent level rest items) item).head? ≠
        some (unit ']') := by
      obtain ⟨u, t, hstart, hu⟩ := startsValue_writeOnto indent (level + 1) h.1 hstops
      rw [hstart]
      rintro ⟨⟩
      exact absurd hu (by decide)
    rw [htext, readValue, if_neg (by decide), if_pos rfl, skipSpace_lineBreak,
      skipSpace_writeOnto indent (level + 1) h.1 hstops]
    dsimp only
    rw [if_neg hhead]
    exact readItems_after items h.2 [] (readsBack item h.1 (level + 1) d _ hstops (by omega))
      (by omega)
  | .object ((key, value) :: fields), h => by
    intro level depth rest hrest hdepth
    have htext : writeOnto indent level rest (.object ((key, value) :: fields)) =
        unit '\x7b' :: (lineBreak indent (level + 1) ++ (writeString key ++ (colon indent ++
          writeOnto indent (level + 1) (writeFields indent level rest fields) value))) := by
      rw [writeOnto]
      rfl
    have hstops := stops_writeFields indent level rest fields
    have hsuffix := (suffix_writeOnto indent (level + 1) (writeFields indent level rest fields)
      value).length_le
    rw [htext, List.length_cons, List.length_append, List.length_append, List.length_append]
      at hdepth
    obtain ⟨d, rfl⟩ : ∃ d, depth = d + 2 := ⟨depth - 2, by omega⟩
    have hvalue := readsBack value h.2.1 (level + 1) d _ hstops (by omega)
    rw [← skipSpace_writeOnto indent (level + 1) h.2.1 hstops] at hvalue
    rw [htext, readValue, if_pos rfl, skipSpace_lineBreak]
    exact readMembers_after fields h.2.2 [] .keyOrBrace key h.1 hvalue (by omega)

theorem readItems_after : ∀ items : List Json, AllExpressible items →
    ∀ {level depth : Nat} {rest t : Text} {j : Json} (read : List Json),
      readValue depth t = .ok (j, writeItems indent level rest items) →
      2 * (writeItems indent level rest items).length ≤ depth →
        readItems (depth + 1) read t = .ok (.array (read.reverse ++ j :: items), rest)
  | [], _, level, depth, rest, t, j, read, hvalue, _ => by
    have htail : skipSpace (writeItems indent level rest []) = unit ']' :: rest := by
      rw [writeItems, skipSpace_lineBreak]
      exact skipSpace_cons (by decide) rest
    rw [readItems_last read hvalue htail, List.reverse_cons]
  | item :: items, h, level, depth, rest, t, j, read, hvalue, hdepth => by
    have htail : writeItems indent level rest (item :: items) =
        unit ',' :: (lineBreak indent (level + 1) ++
          writeOnto indent (level + 1) (writeItems indent level rest items) item) := by
      rw [writeItems]
      rfl
    have hstops := stops_writeItems indent level rest items
    have hsuffix := (suffix_writeOnto indent (level + 1) (writeItems indent level rest items)
      item).length_le
    rw [htail, List.length_cons, List.length_append] at hdepth
    obtain ⟨d, rfl⟩ : ∃ d, depth = d + 1 := ⟨depth - 1, by omega⟩
    rw [htail] at hvalue
    rw [readItems_more read hvalue (skipSpace_cons (by decide) _), skipSpace_lineBreak,
      skipSpace_writeOnto indent (level + 1) h.1 hstops]
    have hitem := readsBack item h.1 (level + 1) d _ hstops (by omega)
    rw [readItems_after items h.2 (j :: read) hitem (by omega), List.reverse_cons,
      List.append_assoc]
    rfl

theorem readMembers_after : ∀ fields : List (Text × Json), FieldsExpressible fields →
    ∀ {level depth : Nat} {rest t : Text} {j : Json} (read : List (Text × Json)) (missing : Flaw)
      (key : Text), (read.map Prod.fst ++ key :: fields.map Prod.fst).Nodup →
      readValue depth (skipSpace t) = .ok (j, writeFields indent level rest fields) →
      2 * (writeFields indent level rest fields).length ≤ depth →
        readMembers (depth + 1) missing read (writeString key ++ (colon indent ++ t)) =
          .ok (.object (read ++ (key, j) :: fields), rest)
  | [], _, level, depth, rest, t, j, read, missing, key, hkeys, hvalue, _ => by
    have hkey : key ∉ read.map Prod.fst := fun hmem =>
      (List.nodup_append.mp hkeys).2.2 key hmem key List.mem_cons_self rfl
    have htail : skipSpace (writeFields indent level rest []) = unit '\x7d' :: rest := by
      rw [writeFields, skipSpace_lineBreak]
      exact skipSpace_cons (by decide) rest
    rw [readMembers_last read missing key indent hvalue htail, setField_of_notMem key hkey]
  | (name, value) :: fields, h, level, depth, rest, t, j, read, missing, key, hkeys, hvalue,
      hdepth => by
    have hkey : key ∉ read.map Prod.fst := fun hmem =>
      (List.nodup_append.mp hkeys).2.2 key hmem key List.mem_cons_self rfl
    have hkeys' : ((read ++ [(key, j)]).map Prod.fst ++ name :: fields.map Prod.fst).Nodup := by
      rw [List.map_append, List.append_assoc]
      exact hkeys
    have htail : writeFields indent level rest ((name, value) :: fields) =
        unit ',' :: (lineBreak indent (level + 1) ++ (writeString name ++ (colon indent ++
          writeOnto indent (level + 1) (writeFields indent level rest fields) value))) := by
      rw [writeFields]
      rfl
    have hstops := stops_writeFields indent level rest fields
    have hsuffix := (suffix_writeOnto indent (level + 1) (writeFields indent level rest fields)
      value).length_le
    rw [htail, List.length_cons, List.length_append, List.length_append, List.length_append]
      at hdepth
    obtain ⟨d, rfl⟩ : ∃ d, depth = d + 1 := ⟨depth - 1, by omega⟩
    rw [htail] at hvalue
    rw [readMembers_more read missing key indent hvalue (skipSpace_cons (by decide) _),
      skipSpace_lineBreak, setField_of_notMem key hkey]
    have hvalue' := readsBack value h.1 (level + 1) d _ hstops (by omega)
    rw [← skipSpace_writeOnto indent (level + 1) h.1 hstops] at hvalue'
    have hmember := readMembers_after fields h.2 (read ++ [(key, j)]) .key name hkeys' hvalue'
      (by omega)
    rw [List.append_assoc] at hmember
    exact hmember

end

/-- What is written is read back. -/
theorem read_writeOnto {j : Json} (hj : j.Expressible) :
    read (writeOnto indent 0 [] j) = .ok j := by
  have hstops := stops_nil continues
  rw [read, skipSpace_writeOnto indent 0 hj hstops,
    readsBack indent j hj 0 _ [] hstops (Nat.le_add_right _ 2)]
  rfl

theorem read_writeIndented {j : Json} (hj : j.Expressible) : read j.writeIndented = .ok j :=
  read_writeOnto (some 2) hj

end ReadBack

end Lox.Json
