import Mathlib.Data.List.TakeWhile
import Lox.Proofs.Json.Quoted
import Lox.Proofs.Source.Fragment

/-! Lexemes: how tokens are written, and what else a text is made of. The first piece of a text is
told apart by its units alone, and by the one or two that follow it. -/

namespace Lox

open Text

namespace Fragment

/-- How a token of a kind is written, in front of a text into which it does not go on. -/
inductive Lexeme : TokenKind → Text → Text → Prop where
  | sign {u kind after} : (u, kind) ∈ TokenKind.signs → Lexeme kind [u] after
  | alone {u alone extended after} : (u, alone, extended) ∈ TokenKind.extendableSigns →
      after.head? ≠ some (unit '=') → Lexeme alone [u] after
  | extended {u alone extended after} : (u, alone, extended) ∈ TokenKind.extendableSigns →
      Lexeme extended [u, unit '='] after
  | slash {after} : after.head? ≠ some (unit '/') → Lexeme .slash [unit '/'] after
  | string {body after} : doubleQuote ∉ body →
      Lexeme .string (doubleQuote :: (body ++ [doubleQuote])) after
  | whole {u digits after} : isDigit u = true → (∀ v ∈ digits, isDigit v = true) →
      Stops isDigit after → (∀ v t, after = unit '.' :: v :: t → isDigit v = false) →
      Lexeme .number (u :: digits) after
  | decimal {u digits v fraction after} : isDigit u = true → (∀ w ∈ digits, isDigit w = true) →
      isDigit v = true → (∀ w ∈ fraction, isDigit w = true) → Stops isDigit after →
      Lexeme .number (u :: (digits ++ unit '.' :: v :: fraction)) after
  | word {u tail after} : isLetter u = true → (∀ v ∈ tail, isWordUnit v = true) →
      Stops isWordUnit after → Lexeme (.ofWord (u :: tail)) (u :: tail) after

/-- A piece of a text, in front of what follows it. -/
inductive Piece : FragmentKind → Text → Text → Prop where
  | token {kind text after} : Lexeme kind text after → Piece (.token kind) text after
  | space {u after} : isSpace u = true → Piece .space [u] after
  | comment {body after} : newline ∉ body → Stops (· ≠ newline) after →
      Piece .comment (unit '/' :: unit '/' :: body) after
  | unexpected {u after} : isSpace u = false →
      (∀ kind tail rest, ¬ Lexeme kind (u :: tail) rest) → Piece (.unexpected u) [u] after
  | unterminated {body} : doubleQuote ∉ body → Piece .unterminated (doubleQuote :: body) []

section First

variable {u : CodeUnit} {rest : Text} {kind : TokenKind}

theorem lookup_eq_none_of {β : Type} {p : CodeUnit → Bool} {table : List (CodeUnit × β)}
    (htable : ∀ entry ∈ table, p entry.1 = false) (hu : p u = true) : table.lookup u = none := by
  refine List.lookup_eq_none_iff.mpr fun entry hentry => bne_iff_ne.mpr ?_
  rintro rfl
  rw [htable entry hentry] at hu
  cases hu

theorem class_of_sign (h : (u, kind) ∈ TokenKind.signs) : UnitClass.of u = .sign kind := by
  have hlookup : ∀ sign ∈ TokenKind.signs, TokenKind.signs.lookup sign.1 = some sign.2 := by decide
  unfold UnitClass.of
  rw [hlookup _ h]

theorem class_of_extendableSign {alone extended : TokenKind}
    (h : (u, alone, extended) ∈ TokenKind.extendableSigns) :
    UnitClass.of u = .extendableSign alone extended := by
  have hlookup : ∀ sign ∈ TokenKind.extendableSigns, TokenKind.signs.lookup sign.1 = none ∧
      TokenKind.extendableSigns.lookup sign.1 = some sign.2 := by decide
  unfold UnitClass.of
  rw [(hlookup _ h).1, (hlookup _ h).2]

theorem class_of_space (h : isSpace u = true) :
    UnitClass.of u = if u = newline then .newline else .space := by
  have hsigns : TokenKind.signs.lookup u = none := lookup_eq_none_of (by decide) h
  have hextendable : TokenKind.extendableSigns.lookup u = none := lookup_eq_none_of (by decide) h
  have hslash : u ≠ unit '/' := by
    rintro rfl
    exact absurd h (by decide)
  unfold UnitClass.of
  rw [hsigns, hextendable]
  dsimp only
  rw [if_neg hslash]
  by_cases hline : u = newline
  · rw [if_pos hline, if_pos hline, hline, if_neg (by decide)]
  · rw [if_pos (by simpa [isSpace, hline] using h), if_neg hline]

theorem class_of_wordUnit (h : isWordUnit u = true) :
    UnitClass.of u = if isDigit u then .digit else .letter := by
  have hsigns : TokenKind.signs.lookup u = none := lookup_eq_none_of (by decide) h
  have hextendable : TokenKind.extendableSigns.lookup u = none := lookup_eq_none_of (by decide) h
  have hne {v : CodeUnit} (hv : isWordUnit v = false) : u ≠ v := by
    rintro rfl
    rw [hv] at h
    cases h
  have hspace : (u = unit ' ' || u = unit '\r' || u = unit '\t') = false := by
    simp [hne (v := unit ' ') (by decide), hne (v := unit '\r') (by decide),
      hne (v := unit '\t') (by decide)]
  unfold UnitClass.of
  rw [hsigns, hextendable]
  dsimp only
  rw [if_neg (hne (by decide)), hspace, if_neg Bool.false_ne_true, if_neg (hne (by decide)),
    if_neg (hne (by decide))]
  by_cases hdigit : isDigit u
  · rw [if_pos hdigit, if_pos hdigit]
  · have hletter : isLetter u := by simpa [isWordUnit, hdigit] using h
    rw [if_neg hdigit, if_neg hdigit, if_pos hletter]

private theorem first_of_sign (h : (u, kind) ∈ TokenKind.signs) : first u rest =
    (.token kind, 0) := by
  rw [first, class_of_sign h]

private theorem first_of_extendableSign {alone extended : TokenKind}
    (h : (u, alone, extended) ∈ TokenKind.extendableSigns) :
    first u rest =
      if rest.head? = some (unit '=') then (.token extended, 1) else (.token alone, 0) := by
  rw [first, class_of_extendableSign h]

theorem first_of_slash : first (unit '/') rest =
    if rest.head? = some (unit '/') then (.comment, (rest.takeWhile (· ≠ newline)).length)
    else (.token .slash, 0) := rfl

private theorem first_of_space (h : isSpace u = true) : first u rest = (.space, 0) := by
  rw [first, class_of_space h]
  by_cases hline : u = newline
  · rw [if_pos hline]
  · rw [if_neg hline]

theorem first_of_quote : first doubleQuote rest =
    if (rest.drop (rest.takeWhile (· ≠ doubleQuote)).length).isEmpty then
      (.unterminated, (rest.takeWhile (· ≠ doubleQuote)).length)
    else (.token .string, (rest.takeWhile (· ≠ doubleQuote)).length + 1) := rfl

private theorem first_of_wordUnit (h : isWordUnit u = true) : first u rest =
    if isDigit u then (.token .number, numberTail rest)
    else (.token (.ofWord (u :: rest.takeWhile isWordUnit)),
      (rest.takeWhile isWordUnit).length) := by
  rw [first, class_of_wordUnit h]
  by_cases hdigit : isDigit u
  · rw [if_pos hdigit, if_pos hdigit]
  · rw [if_neg hdigit, if_neg hdigit]

/-- A number that stops behind its digits, unless a point and another digit follow. -/
theorem numberTail_whole {digits after : Text} (hdigits : ∀ v ∈ digits, isDigit v = true)
    (hstop : Stops isDigit after)
    (hpoint : ∀ v t, after = unit '.' :: v :: t → isDigit v = false) :
    numberTail (digits ++ after) = digits.length := by
  unfold numberTail
  rw [takeWhile_append_of_stops hdigits hstop]
  dsimp only
  rw [List.drop_left]
  rcases after with _ | ⟨point, _ | ⟨v, t⟩⟩
  · rfl
  · rfl
  · have hends : ¬ (point = unit '.' && isDigit v) := by
      rw [Bool.and_eq_true, decide_eq_true_eq]
      rintro ⟨rfl, hv⟩
      rw [hpoint v t rfl] at hv
      cases hv
    dsimp only
    rw [if_neg hends]

private theorem numberTail_decimal {digits fraction after : Text} {v : CodeUnit}
    (hdigits : ∀ w ∈ digits, isDigit w = true) (hv : isDigit v = true)
    (hfraction : ∀ w ∈ fraction, isDigit w = true) (hstop : Stops isDigit after) :
    numberTail (digits ++ unit '.' :: v :: (fraction ++ after)) =
      (digits ++ unit '.' :: v :: fraction).length := by
  have hpoint : Stops isDigit (unit '.' :: v :: (fraction ++ after)) := stops_cons (by decide) _
  unfold numberTail
  rw [takeWhile_append_of_stops hdigits hpoint]
  dsimp only
  rw [List.drop_left]
  simp only [hv, decide_true, Bool.and_self, if_true, takeWhile_append_of_stops hfraction hstop,
    List.length_append, List.length_cons]
  omega

theorem isWordUnit_of_digit (h : isDigit u = true) : isWordUnit u = true := by
  unfold isWordUnit
  rw [h, Bool.or_true]

theorem isDigit_of_letter (h : isLetter u = true) : isDigit u = false := by
  have hunits : (unit '0').toNat = 48 ∧ (unit '9').toNat = 57 ∧ (unit 'a').toNat = 97 ∧
      (unit 'z').toNat = 122 ∧ (unit 'A').toNat = 65 ∧ (unit 'Z').toNat = 90 ∧
      (unit '_').toNat = 95 := by decide
  simp only [isLetter, isDigit, Bool.or_eq_true, Bool.and_eq_true, decide_eq_true_eq, beq_iff_eq,
    Bool.and_eq_false_iff, decide_eq_false_iff_not, UInt16.le_iff_toNat_le,
    ← UInt16.toNat_inj] at h ⊢
  omega

/-- A lexeme is read as a whole, whatever follows it. -/
theorem first_of_lexeme {tail after : Text} (h : Lexeme kind (u :: tail) after) :
    first u (tail ++ after) = (.token kind, tail.length) := by
  cases h with
  | sign hsign => exact first_of_sign hsign
  | alone hsign hequals => rw [first_of_extendableSign hsign, List.nil_append, if_neg hequals]; rfl
  | extended hsign => rw [first_of_extendableSign hsign]; rfl
  | slash hslash => rw [first_of_slash, List.nil_append, if_neg hslash]; rfl
  | @string body _ hquote =>
    have hbody : ∀ v ∈ body, (decide (v ≠ doubleQuote)) = true := by
      intro v hv
      exact decide_eq_true (ne_of_mem_of_not_mem hv hquote)
    rw [first_of_quote, List.append_assoc, List.singleton_append,
      takeWhile_append_of_stops hbody (stops_cons (by decide) _), List.drop_left,
      if_neg (by simp), List.length_append, List.length_singleton]
  | whole hu hdigits hstop hpoint =>
    rw [first_of_wordUnit (isWordUnit_of_digit hu), if_pos hu,
      numberTail_whole hdigits hstop hpoint]
  | decimal hu hdigits hv hfraction hstop =>
    rw [first_of_wordUnit (isWordUnit_of_digit hu), if_pos hu, List.append_assoc]
    exact congrArg (Prod.mk _) (numberTail_decimal hdigits hv hfraction hstop)
  | word hu htail hstop =>
    have hword : isWordUnit u = true := by rw [isWordUnit, hu, Bool.true_or]
    rw [first_of_wordUnit hword, if_neg (by simp [isDigit_of_letter hu]),
      takeWhile_append_of_stops htail hstop]

theorem class_of_unexpected (hspace : isSpace u = false)
    (hnone : ∀ kind tail after, ¬ Lexeme kind (u :: tail) after) : UnitClass.of u = .other := by
  have hsign : TokenKind.signs.lookup u = none :=
    Option.eq_none_iff_forall_ne_some.mpr fun kind hkind =>
      hnone kind [] [] (.sign (mem_of_lookup hkind))
  have hextendable : TokenKind.extendableSigns.lookup u = none :=
    Option.eq_none_iff_forall_ne_some.mpr fun kinds hkinds =>
      hnone kinds.2 [unit '='] [] (.extended (mem_of_lookup hkinds))
  have hslash : u ≠ unit '/' := by
    rintro rfl
    exact hnone .slash [] [] (.slash nofun)
  have hquote : u ≠ doubleQuote := by
    rintro rfl
    exact hnone .string _ [] (.string (List.not_mem_nil (a := doubleQuote)))
  have hdigit : isDigit u = false := Bool.eq_false_iff.mpr fun hdigit =>
    hnone .number [] [] (.whole hdigit nofun (stops_nil _) nofun)
  have hletter : isLetter u = false := Bool.eq_false_iff.mpr fun hletter =>
    hnone _ [] [] (.word hletter nofun (stops_nil _))
  have hspaces : u ≠ unit ' ' ∧ u ≠ unit '\r' ∧ u ≠ unit '\t' ∧ u ≠ newline := by
    simpa [isSpace, and_assoc] using hspace
  unfold UnitClass.of
  rw [hsign, hextendable]
  simp [hslash, hspaces, hquote, hdigit, hletter]

private theorem first_of_piece {kind : FragmentKind} {tail after : Text}
    (h : Piece kind (u :: tail) after) : first u (tail ++ after) = (kind, tail.length) := by
  cases h with
  | token hlexeme => exact first_of_lexeme hlexeme
  | space hspace => exact first_of_space hspace
  | @comment body _ hbody hstop =>
    have hline : ∀ v ∈ unit '/' :: body, (decide (v ≠ newline)) = true := by
      refine List.forall_mem_cons.mpr ⟨by decide, fun v hv => ?_⟩
      exact decide_eq_true (ne_of_mem_of_not_mem hv hbody)
    rw [first_of_slash, takeWhile_append_of_stops hline hstop]
    rfl
  | unexpected hspace hnone => rw [first, class_of_unexpected hspace hnone]; rfl
  | unterminated hquote =>
    have hbody : ∀ v ∈ tail, (decide (v ≠ doubleQuote)) = true := by
      intro v hv
      exact decide_eq_true (ne_of_mem_of_not_mem hv hquote)
    rw [first_of_quote, takeWhile_append_of_stops hbody (stops_nil _), List.append_nil,
      List.drop_length]
    rfl

end First

section Exists

variable {u : CodeUnit} (rest : Text)

private theorem exists_extendable {alone extended : TokenKind}
    (h : (u, alone, extended) ∈ TokenKind.extendableSigns) :
    ∃ kind tail after, rest = tail ++ after ∧ Lexeme kind (u :: tail) after := by
  by_cases hequals : rest.head? = some (unit '=')
  · obtain ⟨after, rfl⟩ := List.head?_eq_some_iff.mp hequals
    exact ⟨extended, [unit '='], after, rfl, .extended h⟩
  · exact ⟨alone, [], rest, rfl, .alone h hequals⟩

private theorem exists_slash :
    ∃ kind tail after, rest = tail ++ after ∧ Piece kind (unit '/' :: tail) after := by
  by_cases hslash : rest.head? = some (unit '/')
  · obtain ⟨line, rfl⟩ := List.head?_eq_some_iff.mp hslash
    refine ⟨.comment, unit '/' :: line.takeWhile (· ≠ newline), line.dropWhile (· ≠ newline),
      ?_, ?_⟩
    · rw [List.cons_append, List.takeWhile_append_dropWhile]
    · refine .comment (fun h => ?_) (stops_dropWhile _ _)
      simpa using List.mem_takeWhile_imp h
  · exact ⟨_, [], rest, rfl, .token (.slash hslash)⟩

private theorem exists_quote :
    ∃ kind tail after, rest = tail ++ after ∧ Piece kind (doubleQuote :: tail) after := by
  have hbody : doubleQuote ∉ rest.takeWhile (· ≠ doubleQuote) := fun h => by
    simpa using List.mem_takeWhile_imp h
  have hstop := stops_dropWhile (· ≠ doubleQuote) rest
  have hrest := List.takeWhile_append_dropWhile (p := (· ≠ doubleQuote)) (l := rest)
  generalize rest.takeWhile (· ≠ doubleQuote) = body at hbody hrest
  cases hdrop : rest.dropWhile (· ≠ doubleQuote) with
  | nil => exact ⟨_, body, [], by rw [← hrest, hdrop], .unterminated hbody⟩
  | cons v after =>
    have hv : v = doubleQuote := by simpa using hstop v (by rw [hdrop]; rfl)
    refine ⟨_, body ++ [doubleQuote], after, ?_, .token (.string hbody)⟩
    rw [← hrest, hdrop, hv, List.append_cons]

private theorem exists_number (hu : isDigit u = true) :
    ∃ kind tail after, rest = tail ++ after ∧ Lexeme kind (u :: tail) after := by
  have hdigits (t : Text) : ∀ v ∈ t.takeWhile isDigit, isDigit v = true :=
    fun v => List.mem_takeWhile_imp
  have hrest := List.takeWhile_append_dropWhile (p := isDigit) (l := rest)
  by_cases hpoint : ∃ v t, rest.dropWhile isDigit = unit '.' :: v :: t ∧ isDigit v = true
  · obtain ⟨v, t, hdrop, hv⟩ := hpoint
    refine ⟨_, _, t.dropWhile isDigit, ?_,
      .decimal hu (hdigits rest) hv (hdigits t) (stops_dropWhile isDigit t)⟩
    rw [List.append_assoc, List.cons_append, List.cons_append, List.takeWhile_append_dropWhile,
      ← hdrop, hrest]
  · refine ⟨_, _, rest.dropWhile isDigit, hrest.symm,
      .whole hu (hdigits rest) (stops_dropWhile isDigit rest) fun v t h => ?_⟩
    exact Bool.eq_false_iff.mpr fun hv => hpoint ⟨v, t, h, hv⟩

/-- Every text starts with a piece. -/
theorem exists_piece (u : CodeUnit) :
    ∃ kind tail after, rest = tail ++ after ∧ Piece kind (u :: tail) after := by
  have token {u : CodeUnit} :
      (∃ kind tail after, rest = tail ++ after ∧ Lexeme kind (u :: tail) after) →
        ∃ kind tail after, rest = tail ++ after ∧ Piece kind (u :: tail) after :=
    fun ⟨_, _, _, hrest, hlexeme⟩ => ⟨_, _, _, hrest, .token hlexeme⟩
  by_cases hspace : isSpace u = true
  · exact ⟨_, [], rest, rfl, .space hspace⟩
  by_cases hstarts : ∃ kind tail after, Lexeme kind (u :: tail) after
  · -- the unit tells what it starts
    obtain ⟨_, _, _, hlexeme⟩ := hstarts
    cases hlexeme with
    | sign hsign => exact ⟨_, [], rest, rfl, .token (.sign hsign)⟩
    | alone hsign _ => exact token (exists_extendable rest hsign)
    | extended hsign => exact token (exists_extendable rest hsign)
    | slash _ => exact exists_slash rest
    | string _ => exact exists_quote rest
    | whole hu _ _ _ => exact token (exists_number rest hu)
    | decimal hu _ _ _ _ => exact token (exists_number rest hu)
    | word hu _ _ =>
      exact ⟨_, _, _, List.takeWhile_append_dropWhile.symm,
        .token (.word hu (fun v => List.mem_takeWhile_imp) (stops_dropWhile isWordUnit rest))⟩
  · refine ⟨_, [], rest, rfl, .unexpected (Bool.not_eq_true _ ▸ hspace) fun kind tail after h => ?_⟩
    exact hstarts ⟨kind, tail, after, h⟩

end Exists

/-- A text that starts with a piece is cut behind it. -/
theorem allFrom_of_piece {kind : FragmentKind} {text after : Text} (h : Piece kind text after)
    (p : Position) :
    allFrom p (text ++ after) = ⟨kind, text, p⟩ :: allFrom (p.after text) after := by
  cases text with
  | nil => cases h with | token hlexeme => cases hlexeme
  | cons u tail =>
    rw [List.cons_append, allFrom, first_of_piece h]
    simp only [List.take_left, List.drop_left]

/-- A text is empty, or it is a piece with a text behind it. -/
theorem pieces_induction {motive : Text → Prop} (nil : motive [])
    (piece : ∀ {kind text after}, Piece kind text after → motive after → motive (text ++ after))
    (t : Text) : motive t := by
  induction hlength : t.length using Nat.strongRecOn generalizing t with
  | ind n ih =>
    cases t with
    | nil => exact nil
    | cons u rest =>
      obtain ⟨kind, tail, after, rfl, hpiece⟩ := exists_piece rest u
      have hafter : after.length < n := by
        rw [← hlength, List.length_cons, List.length_append]
        omega
      exact piece hpiece (ih after.length hafter after rfl)

section Behind

variable {kind : TokenKind} {text after : Text}

/-- No lexeme goes on into white space. -/
theorem Lexeme.before_space {u : CodeUnit} (h : Lexeme kind text after)
    (hu : isSpace u = true) (rest : Text) : Lexeme kind text (u :: rest) := by
  have hne {v : CodeUnit} (hv : isSpace v = false) : u ≠ v := by
    rintro rfl
    rw [hv] at hu
    cases hu
  have hstop {p : CodeUnit → Bool} (hp : p (unit ' ') = false ∧ p (unit '\r') = false ∧
      p (unit '\t') = false ∧ p newline = false) : Stops p (u :: rest) := by
    refine stops_cons ?_ rest
    simp only [isSpace, Bool.or_eq_true, beq_iff_eq] at hu
    rcases hu with ((rfl | rfl) | rfl) | rfl
    exacts [hp.1, hp.2.1, hp.2.2.1, hp.2.2.2]
  cases h with
  | sign hsign => exact .sign hsign
  | alone hsign _ => exact .alone hsign (by simpa using hne (by decide))
  | extended hsign => exact .extended hsign
  | slash _ => exact .slash (by simpa using hne (by decide))
  | string hbody => exact .string hbody
  | whole hu hdigits _ _ =>
    refine .whole hu hdigits (hstop (by decide)) fun v t h => ?_
    exact absurd (List.cons.inj h).1 (hne (by decide))
  | decimal hu hdigits hv hfraction _ => exact .decimal hu hdigits hv hfraction (hstop (by decide))
  | word hu htail _ => exact .word hu htail (hstop (by decide))

/-- A new line behind a text changes nothing for a lexeme at its start. -/
theorem Lexeme.append_newline (h : Lexeme kind text after) (s : Text) :
    Lexeme kind text (after ++ newline :: s) := by
  cases after with
  | nil => exact h.before_space (by decide) s
  | cons v after =>
    cases h with
    | sign hsign => exact .sign hsign
    | alone hsign hequals => exact .alone hsign hequals
    | extended hsign => exact .extended hsign
    | slash hslash => exact .slash hslash
    | string hbody => exact .string hbody
    | whole hu hdigits hstop hpoint =>
      refine .whole hu hdigits hstop fun w t h => ?_
      cases after with
      | nil =>
        -- a point at the end has the new line behind it
        cases h
        rfl
      | cons v' after =>
        cases h
        exact hpoint w after rfl
    | decimal hu hdigits hv hfraction hstop => exact .decimal hu hdigits hv hfraction hstop
    | word hu htail hstop => exact .word hu htail hstop

/-- Nor does it for any other piece, unless that is a string that never ends. -/
theorem Piece.append_newline {kind : FragmentKind} (h : Piece kind text after)
    (hends : kind ≠ .unterminated) (s : Text) : Piece kind text (after ++ newline :: s) := by
  cases h with
  | token hlexeme => exact .token (hlexeme.append_newline s)
  | space hu => exact .space hu
  | comment hbody hstop =>
    cases after with
    | nil => exact .comment hbody (stops_cons (by decide) s)
    | cons v after => exact .comment hbody hstop
  | unexpected hspace hnone => exact .unexpected hspace hnone
  | unterminated => exact absurd rfl hends

end Behind

end Fragment

end Lox
