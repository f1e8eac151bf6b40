import Lox.Proofs.Source.Lexeme

/-! A scanner stands at the end of a piece exactly when it has read that piece: its counters say
where the piece begins and where it ends. So it finds the fragments of its text one by one. -/

namespace Lox

open Text Fragment

namespace Scanner

section

variable {s : Scanner} {u : CodeUnit} {p : CodeUnit → Bool}

theorem ne_newline_of (hline : p newline = false) (hu : p u = true) : u ≠ newline := by
  rintro rfl
  rw [hline] at hu
  cases hu

private theorem advanceWhile_of_peek? (h : s.peek? = some u) :
    s.advanceWhile p = if p u then s.advance.advanceWhile p else s := by
  rw [advanceWhile]
  split <;> simp_all

private theorem advanceWhile_of_stops (h : ∀ u ∈ s.peek?, p u = false) : s.advanceWhile p = s := by
  rw [advanceWhile]
  split <;> simp_all

private theorem advanceToQuote_of_peek? (h : s.peek? = some u) (hu : u ≠ doubleQuote) :
    s.advanceToQuote =
      if u = newline then s.advance.newLine.advanceToQuote else s.advance.advanceToQuote := by
  rw [advanceToQuote]
  split <;> simp_all

private theorem advanceToQuote_of_stops (h : ∀ u ∈ s.peek?, u = doubleQuote) :
    s.advanceToQuote = s := by
  rw [advanceToQuote]
  split <;> simp_all

end

/-- The scanner has read `text` of the piece that begins behind `before`, and `after` is still to
come. It has found these tokens and errors. -/
structure Within (s : Scanner) (before text after : Text) (tokens : List Token)
    (errors : List SourceError) : Prop where
  source : s.source.toList = before ++ text ++ after
  start : s.start = before.length
  current : s.current = (before ++ text).length
  startPlace : ⟨s.startLine, s.startColumn⟩ = Position.start.after before
  place : ⟨s.line, s.column⟩ = Position.start.after (before ++ text)
  lineStart : s.lineStart ≤ s.current
  tokens : s.tokens.toList = tokens
  errors : s.errors.toList = errors

namespace Within

variable {s : Scanner} {before text after more : Text} {tokens : List Token}
  {errors : List SourceError} {u : CodeUnit} {p : CodeUnit → Bool}

private theorem new (source : Text) : (Scanner.new source).Within [] [] source [] [] :=
  ⟨rfl, rfl, rfl, rfl, rfl, Nat.le_refl 0, rfl, rfl⟩

private theorem begin (h : s.Within before text after tokens errors) :
    s.begin.Within (before ++ text) [] after tokens errors where
  source := by rw [List.append_nil]; exact h.source
  start := h.current
  current := by rw [List.append_nil]; exact h.current
  startPlace := h.place
  place := by rw [List.append_nil]; exact h.place
  lineStart := h.lineStart
  tokens := h.tokens
  errors := h.errors

theorem getElem? (h : s.Within before text after tokens errors) (i : Nat) :
    s.source[s.current + i]? = after[i]? := by
  rw [← Array.getElem?_toList, h.source, h.current,
    List.getElem?_append_right (Nat.le_add_right ..),
    Nat.add_sub_cancel_left]

theorem peek? (h : s.Within before text after tokens errors) : s.peek? = after.head? := by
  rw [List.head?_eq_getElem?]
  exact h.getElem? 0

theorem peekNext? (h : s.Within before text after tokens errors) : s.peekNext? = after[1]? :=
  h.getElem? 1

theorem advance (h : s.Within before text (u :: after) tokens errors) (hu : u ≠ newline) :
    s.advance.Within before (text ++ [u]) after tokens errors where
  source := by rw [← List.append_assoc, List.append_assoc]; exact h.source
  start := h.start
  current := by
    rw [← List.append_assoc, List.length_append]
    exact congrArg (· + 1) h.current
  startPlace := h.startPlace
  place := by
    have hcolumn : s.advance.column = s.column + 1 := by
      have hline := h.lineStart
      simp only [Scanner.advance, column]
      omega
    rw [hcolumn, ← List.append_assoc, Position.after_append, ← h.place, Position.after_cons,
      Position.advance, if_neg hu]
    rfl
  lineStart := Nat.le_succ_of_le h.lineStart
  tokens := h.tokens
  errors := h.errors

theorem advance_newLine (h : s.Within before text (newline :: after) tokens errors) :
    s.advance.newLine.Within before (text ++ [newline]) after tokens errors where
  source := by rw [← List.append_assoc, List.append_assoc]; exact h.source
  start := h.start
  current := by
    rw [← List.append_assoc, List.length_append]
    exact congrArg (· + 1) h.current
  startPlace := h.startPlace
  place := by
    have hcolumn : s.advance.newLine.column = 1 := by
      simp only [newLine, column]
      omega
    rw [hcolumn, ← List.append_assoc, Position.after_append, ← h.place]
    rfl
  lineStart := Nat.le_refl _
  tokens := h.tokens
  errors := h.errors

theorem advanceWhile (hline : p newline = false) (hmore : ∀ u ∈ more, p u = true)
    (hstop : Stops p after) (h : s.Within before text (more ++ after) tokens errors) :
    (s.advanceWhile p).Within before (text ++ more) after tokens errors := by
  induction more generalizing s text with
  | nil =>
    rw [List.append_nil, advanceWhile_of_stops fun u hu => hstop u (h.peek? ▸ hu)]
    exact h
  | cons u more ih =>
    obtain ⟨hu, hmore⟩ := List.forall_mem_cons.mp hmore
    rw [advanceWhile_of_peek? h.peek?, if_pos hu, List.append_cons]
    exact ih hmore (h.advance (ne_newline_of hline hu))

theorem advanceToQuote (hmore : doubleQuote ∉ more) (hstop : Stops (· ≠ doubleQuote) after)
    (h : s.Within before text (more ++ after) tokens errors) :
    s.advanceToQuote.Within before (text ++ more) after tokens errors := by
  induction more generalizing s text with
  | nil =>
    have hquote : ∀ u ∈ s.peek?, u = doubleQuote := fun u hu => by
      simpa using hstop u (h.peek? ▸ hu)
    rw [List.append_nil, advanceToQuote_of_stops hquote]
    exact h
  | cons u more ih =>
    have hu : u ≠ doubleQuote := fun hu => hmore (hu ▸ List.mem_cons_self)
    have hrest : doubleQuote ∉ more := fun hmem => hmore (List.mem_cons_of_mem u hmem)
    rw [advanceToQuote_of_peek? h.peek? hu, List.append_cons]
    by_cases hline : u = newline
    · subst hline
      exact ih hrest h.advance_newLine
    · rw [if_neg hline]
      exact ih hrest (h.advance hline)

theorem lexeme (h : s.Within before text after tokens errors) : s.lexeme = text := by
  rw [Scanner.lexeme, slice, Array.toList_extract, h.source, h.start, h.current,
    List.extract_eq_take_drop, List.append_assoc, List.drop_left, List.length_append,
    Nat.add_sub_cancel_left, List.take_left]

theorem addToken (h : s.Within before text after tokens errors) (kind : TokenKind)
    (literal : TokenLiteral) : (s.addToken kind literal).Within before text after
      (tokens ++ [⟨kind, text, literal, Position.start.after before⟩]) errors :=
  { h with
    tokens := by
      rw [← h.tokens, ← h.startPlace, ← h.lexeme]
      exact Array.toList_push }

theorem error (h : s.Within before text after tokens errors) (problem : Problem) :
    (s.error problem).Within before text after tokens
      (errors ++ [⟨problem, Position.start.after before⟩]) :=
  { h with
    errors := by
      rw [← h.errors, ← h.startPlace]
      exact Array.toList_push }

theorem addToken_spelled {kind : TokenKind} (h : s.Within before text after tokens errors)
    (hnumber : kind ≠ .number) (hstring : kind ≠ .string) :
    (s.addToken kind .none).Within before text after
      (tokens ++ [.spelled kind text (Position.start.after before)]) errors := by
  have hliteral : kind.literal text = .none := by
    unfold TokenKind.literal
    split <;> trivial
  rw [Token.spelled, hliteral]
  exact h.addToken kind .none

private theorem string (hmore : doubleQuote ∉ more)
    (h : s.Within before [doubleQuote] (more ++ [doubleQuote] ++ after) tokens errors) :
    s.string.Within before (doubleQuote :: (more ++ [doubleQuote])) after
      (tokens ++ [.spelled .string (doubleQuote :: (more ++ [doubleQuote]))
        (Position.start.after before)]) errors := by
  rw [List.append_assoc] at h
  have hbody := h.advanceToQuote hmore (stops_cons (by decide) after)
  have hclosed := hbody.advance (by decide)
  have hslice : s.advanceToQuote.advance.slice (s.advanceToQuote.advance.start + 1)
      (s.advanceToQuote.advance.current - 1) = more := by
    rw [slice, Array.toList_extract, hclosed.source, hclosed.start, hclosed.current,
      List.extract_eq_take_drop, List.append_assoc before, ← List.drop_drop, List.drop_left]
    have hlength : before.length + (more.length + 1) - (before.length + 1) = more.length := by omega
    simp [hlength]
  have hliteral : TokenKind.literal .string (doubleQuote :: (more ++ [doubleQuote])) =
      .string more := by
    simp [TokenKind.literal]
  unfold Scanner.string
  dsimp only
  rw [hbody.peek?, hslice, Token.spelled, hliteral]
  exact hclosed.addToken .string (.string more)

/-- A quote that no other quote follows takes all that is left. -/
theorem string_unterminated (hmore : doubleQuote ∉ more)
    (h : s.Within before [doubleQuote] more tokens errors) :
    s.string.Within before (doubleQuote :: more) [] tokens
      (errors ++ [⟨.unterminatedString, Position.start.after before⟩]) := by
  rw [← List.append_nil more] at h
  have hbody := h.advanceToQuote hmore (stops_nil _)
  unfold Scanner.string
  dsimp only
  rw [hbody.peek?]
  exact hbody.error .unterminatedString

private theorem number_whole (hmore : ∀ v ∈ more, isDigit v = true) (hstop : Stops isDigit after)
    (hpoint : ∀ v t, after = unit '.' :: v :: t → isDigit v = false)
    (h : s.Within before text (more ++ after) tokens errors) :
    s.number.Within before (text ++ more) after
      (tokens ++ [.spelled .number (text ++ more) (Position.start.after before)]) errors := by
  have hdigits := h.advanceWhile (by decide) hmore hstop
  have hends : ¬ ((s.advanceWhile isDigit).peek? = some (unit '.') &&
      (s.advanceWhile isDigit).peekNext?.any isDigit) = true := by
    rw [hdigits.peek?, hdigits.peekNext?]
    rcases after with _ | ⟨point, _ | ⟨v, t⟩⟩
    · simp
    · simp
    · by_cases hv : point = unit '.'
      · simp [hpoint v t (by rw [hv])]
      · simp [hv]
  unfold Scanner.number
  dsimp only
  rw [if_neg hends, hdigits.lexeme]
  exact hdigits.addToken .number _

private theorem number_decimal {v : CodeUnit} {fraction : Text}
    (hmore : ∀ w ∈ more, isDigit w = true)
    (hv : isDigit v = true) (hfraction : ∀ w ∈ fraction, isDigit w = true)
    (hstop : Stops isDigit after)
    (h : s.Within before text (more ++ unit '.' :: v :: (fraction ++ after)) tokens errors) :
    s.number.Within before (text ++ (more ++ unit '.' :: v :: fraction)) after
      (tokens ++ [.spelled .number (text ++ (more ++ unit '.' :: v :: fraction))
        (Position.start.after before)]) errors := by
  have hwhole := h.advanceWhile (by decide) hmore (stops_cons (by decide) _)
  have hgoes : ((s.advanceWhile isDigit).peek? = some (unit '.') &&
      (s.advanceWhile isDigit).peekNext?.any isDigit) = true := by
    simp [hwhole.peek?, hwhole.peekNext?, hv]
  have hdigits : ∀ w ∈ v :: fraction, isDigit w = true := List.forall_mem_cons.mpr ⟨hv, hfraction⟩
  have hpoint : (s.advanceWhile isDigit).advance.Within before (text ++ more ++ [unit '.'])
      (v :: fraction ++ after) tokens errors := hwhole.advance (by decide)
  have hall := hpoint.advanceWhile (by decide) hdigits hstop
  have htext : text ++ more ++ [unit '.'] ++ v :: fraction =
      text ++ (more ++ unit '.' :: v :: fraction) := by simp
  rw [htext] at hall
  unfold Scanner.number
  dsimp only
  rw [if_pos hgoes, hall.lexeme]
  exact hall.addToken .number _

private theorem word (hmore : ∀ v ∈ more, isWordUnit v = true) (hstop : Stops isWordUnit after)
    (h : s.Within before text (more ++ after) tokens errors) :
    s.word.Within before (text ++ more) after
      (tokens ++ [.spelled (.ofWord (text ++ more)) (text ++ more) (Position.start.after before)])
      errors := by
  have hword := h.advanceWhile (by decide) hmore hstop
  have hkeywords : ∀ entry ∈ TokenKind.keywords, entry.2 ≠ .number ∧ entry.2 ≠ .string := by decide
  have hkind : TokenKind.ofWord (text ++ more) ≠ .number ∧
      TokenKind.ofWord (text ++ more) ≠ .string := by
    unfold TokenKind.ofWord
    cases hlookup : TokenKind.keywords.lookup (text ++ more) with
    | none => exact ⟨nofun, nofun⟩
    | some kind => exact hkeywords _ (mem_of_lookup hlookup)
  unfold Scanner.word
  dsimp only
  rw [hword.lexeme]
  exact hword.addToken_spelled hkind.1 hkind.2

/-- A scanner that has read the first unit of a piece reads all of it. -/
theorem scanToken {tail : Text} {kind : FragmentKind} (hpiece : Piece kind (u :: tail) after)
    (h : s.Within before [] (u :: (tail ++ after)) tokens errors) :
    let fragment : Fragment := ⟨kind, u :: tail, Position.start.after before⟩
    (s.advance.scanToken u).Within before (u :: tail) after (tokens ++ fragment.token?.toList)
      (errors ++ fragment.error?.toList) := by
  intro fragment
  have hfirst (hu : u ≠ newline) : s.advance.Within before [u] (tail ++ after) tokens errors :=
    h.advance hu
  unfold Scanner.scanToken
  cases hpiece with
  | token hlexeme =>
    simp only [fragment, Fragment.error?, Fragment.token?, Option.toList_some, Option.toList_none,
      List.append_nil]
    have hsigns : ∀ sign ∈ TokenKind.extendableSigns,
        (sign.1 ≠ newline ∧ sign.2.1 ≠ .number ∧ sign.2.1 ≠ .string) ∧
          sign.2.2 ≠ .number ∧ sign.2.2 ≠ .string := by decide
    cases hlexeme with
    | sign hsign =>
      have hsingle : ∀ sign ∈ TokenKind.signs,
          sign.1 ≠ newline ∧ sign.2 ≠ .number ∧ sign.2 ≠ .string := by decide
      obtain ⟨hline, hnumber, hstring⟩ := hsingle _ hsign
      rw [class_of_sign hsign]
      exact (hfirst hline).addToken_spelled hnumber hstring
    | alone hsign hequals =>
      obtain ⟨hline, hnumber, hstring⟩ := (hsigns _ hsign).1
      have hnext : ¬ s.advance.peek? = some (unit '=') := by
        rw [(hfirst hline).peek?]
        exact hequals
      rw [class_of_extendableSign hsign]
      dsimp only
      rw [if_neg hnext]
      exact (hfirst hline).addToken_spelled hnumber hstring
    | extended hsign =>
      obtain ⟨⟨hline, -, -⟩, hnumber, hstring⟩ := hsigns _ hsign
      have hnext : s.advance.peek? = some (unit '=') := (hfirst hline).peek?
      rw [class_of_extendableSign hsign]
      dsimp only
      rw [if_pos hnext]
      exact ((hfirst hline).advance (by decide)).addToken_spelled hnumber hstring
    | slash hslash =>
      have hnext : ¬ s.advance.peek? = some (unit '/') := by
        rw [(hfirst (by decide)).peek?]
        exact hslash
      rw [show UnitClass.of (unit '/') = .slash by decide]
      dsimp only
      rw [if_neg hnext]
      exact (hfirst (by decide)).addToken_spelled nofun nofun
    | string hbody => exact (hfirst (by decide)).string hbody
    | whole hu hdigits hstop hpoint =>
      rw [class_of_wordUnit (isWordUnit_of_digit hu), if_pos hu]
      exact (hfirst (ne_newline_of (by decide) hu)).number_whole hdigits hstop hpoint
    | decimal hu hdigits hv hfraction hstop =>
      rw [class_of_wordUnit (isWordUnit_of_digit hu), if_pos hu]
      rw [List.append_assoc, List.cons_append, List.cons_append] at hfirst
      exact (hfirst (ne_newline_of (by decide) hu)).number_decimal hdigits hv hfraction hstop
    | word hu htail hstop =>
      have hword : isWordUnit u = true := by rw [isWordUnit, hu, Bool.true_or]
      rw [class_of_wordUnit hword, if_neg (by simp [isDigit_of_letter hu])]
      exact (hfirst (ne_newline_of (by decide) hu)).word htail hstop
  | space hspace =>
    simp only [fragment, Fragment.error?, Fragment.token?, Option.toList_none, List.append_nil]
    rw [class_of_space hspace]
    by_cases hline : u = newline
    · subst hline
      exact h.advance_newLine
    · rw [if_neg hline]
      exact hfirst hline
  | @comment body _ hbody hstop =>
    simp only [fragment, Fragment.error?, Fragment.token?, Option.toList_none, List.append_nil]
    have hnext : s.advance.peek? = some (unit '/') := (hfirst (by decide)).peek?
    have hcomment : ∀ v ∈ body, decide (v ≠ newline) = true := fun v hv =>
      decide_eq_true (ne_of_mem_of_not_mem hv hbody)
    rw [show UnitClass.of (unit '/') = .slash by decide]
    dsimp only
    rw [if_pos hnext]
    exact ((hfirst (by decide)).advance (by decide)).advanceWhile (by decide) hcomment hstop
  | unexpected hspace hnone =>
    simp only [fragment, Fragment.error?, Fragment.token?, Option.toList_none, Option.toList_some,
      List.append_nil]
    rw [class_of_unexpected hspace hnone]
    refine (hfirst ?_).error _
    rintro rfl
    cases hspace
  | unterminated hbody =>
    simp only [fragment, Fragment.error?, Fragment.token?, Option.toList_none, Option.toList_some,
      List.append_nil]
    rw [List.append_nil] at hfirst
    exact (hfirst (by decide)).string_unterminated hbody

private theorem toList_append_filterMap {α β : Type} (f : α → Option β) (a : α) (as : List α) :
    (f a).toList ++ as.filterMap f = (a :: as).filterMap f := by
  rw [List.filterMap_cons]
  cases f a <;> rfl

/-- The scanner goes through the fragments of what is still to come. -/
theorem scanTokens (h : s.Within before text after tokens errors) :
    let fragments := allFrom (Position.start.after (before ++ text)) after
    s.scanTokens.tokens.toList = tokens ++ fragments.filterMap Fragment.token? ∧
    s.scanTokens.errors.toList = errors ++ fragments.filterMap Fragment.error? ∧
    ⟨s.scanTokens.line, s.scanTokens.column⟩ =
      Position.start.after (before ++ text ++ after) := by
  induction after using pieces_induction generalizing s before text tokens errors with
  | nil =>
    have hend : s.scanTokens = s := by
      rw [Scanner.scanTokens]
      split <;> simp_all [h.peek?]
    rw [hend, allFrom, List.append_nil]
    exact ⟨by simpa using h.tokens, by simpa using h.errors, h.place⟩
  | @piece kind piece after hpiece ih =>
    cases piece with
    | nil => cases hpiece with | token hlexeme => cases hlexeme
    | cons u tail =>
      have hnext : s.scanTokens = (s.begin.advance.scanToken u).scanTokens := by
        have hpeek : s.peek? = some u := h.peek?
        rw [Scanner.scanTokens]
        split <;> simp_all
      obtain ⟨htokens, herrors, hplace⟩ := ih (h.begin.scanToken hpiece)
      rw [List.append_assoc, toList_append_filterMap] at htokens herrors
      rw [hnext, allFrom_of_piece hpiece, ← Position.after_append, ← List.append_assoc]
      exact ⟨htokens, herrors, hplace⟩

end Within

end Scanner

/-- Scanning finds the tokens and the errors among the fragments of the text, and ends where the
text ends. -/
theorem scan_eq (source : Text) : scan source =
    ⟨(Fragment.all source).filterMap Fragment.token?,
      (Fragment.all source).filterMap Fragment.error?, Position.start.after source⟩ := by
  obtain ⟨htokens, herrors, hplace⟩ := (Scanner.Within.new source).scanTokens
  unfold scan
  dsimp only
  rw [htokens, herrors, hplace]
  rfl

theorem tokens_scan (source : Text) :
    (scan source).tokens = (Fragment.all source).filterMap Fragment.token? := by
  rw [scan_eq]

theorem errors_scan (source : Text) :
    (scan source).errors = (Fragment.all source).filterMap Fragment.error? := by
  rw [scan_eq]

end Lox
