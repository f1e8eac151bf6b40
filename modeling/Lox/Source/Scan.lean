import Lox.Source.Problem

/-! Scanning: the tokens of a source text, with all that is wrong between them. A scanner goes
through the text unit by unit and counts lines; columns are counted from the start of the line. -/

namespace Lox

open Text

/-- What a unit starts, as far as it tells by itself. -/
inductive UnitClass where
  | sign (kind : TokenKind)
  | extendableSign (alone extended : TokenKind)
  | slash | space | newline | doubleQuote | digit | letter | other
  deriving DecidableEq, Repr

def UnitClass.of (u : CodeUnit) : UnitClass :=
  match TokenKind.signs.lookup u, TokenKind.extendableSigns.lookup u with
  | some kind, _ => .sign kind
  | none, some (alone, extended) => .extendableSign alone extended
  | none, none =>
    if u = unit '/' then .slash
    else if u = unit ' ' || u = unit '\r' || u = unit '\t' then .space
    else if u = Text.newline then .newline
    else if u = Text.doubleQuote then .doubleQuote
    else if isDigit u then .digit
    else if isLetter u then .letter
    else .other

/-- A scanner inside a source text. The piece that it is reading begins at `start`, on line
`startLine` and in column `startColumn`. -/
structure Scanner where
  source : Array CodeUnit
  tokens : Array Token
  errors : Array SourceError
  start : Nat
  /-- Where the next unit stands. -/
  current : Nat
  line : Nat
  /-- Where the first unit of the current line stands. -/
  lineStart : Nat
  startLine : Nat
  startColumn : Nat

namespace Scanner

def new (source : Text) : Scanner := ⟨source.toArray, #[], #[], 0, 0, 1, 0, 1, 1⟩

def peek? (s : Scanner) : Option CodeUnit := s.source[s.current]?

def peekNext? (s : Scanner) : Option CodeUnit := s.source[s.current + 1]?

def column (s : Scanner) : Nat := s.current - s.lineStart + 1

/-- Starts a new piece. -/
def begin (s : Scanner) : Scanner :=
  { s with start := s.current, startLine := s.line, startColumn := s.column }

def advance (s : Scanner) : Scanner := { s with current := s.current + 1 }

/-- Starts a new line behind a newline. -/
def newLine (s : Scanner) : Scanner := { s with line := s.line + 1, lineStart := s.current }

def slice (s : Scanner) (start stop : Nat) : Text := (s.source.extract start stop).toList

def lexeme (s : Scanner) : Text := s.slice s.start s.current

def addToken (s : Scanner) (kind : TokenKind) (literal : TokenLiteral) : Scanner :=
  { s with tokens := s.tokens.push ⟨kind, s.lexeme, literal, ⟨s.startLine, s.startColumn⟩⟩ }

def error (s : Scanner) (problem : Problem) : Scanner :=
  { s with errors := s.errors.push ⟨problem, ⟨s.startLine, s.startColumn⟩⟩ }

theorem lt_size_of_peek? {s : Scanner} {u : CodeUnit} (h : s.peek? = some u) :
    s.current < s.source.size :=
  (Array.getElem?_eq_some_iff.mp h).1

/-- Goes on while there are such units. -/
def advanceWhile (p : CodeUnit → Bool) (s : Scanner) : Scanner :=
  match _h : s.peek? with
  | none => s
  | some u => if p u then s.advance.advanceWhile p else s
  termination_by s.source.size - s.current
  decreasing_by
    have := lt_size_of_peek? _h
    simp only [advance]
    omega

/-- Goes on up to a quote or to the end of the text. -/
def advanceToQuote (s : Scanner) : Scanner :=
  match _h : s.peek? with
  | none => s
  | some u =>
    if u = doubleQuote then s
    else if u = newline then s.advance.newLine.advanceToQuote
    else s.advance.advanceToQuote
  termination_by s.source.size - s.current
  decreasing_by
    all_goals
      have := lt_size_of_peek? _h
      simp only [advance, newLine]
      omega

def string (s : Scanner) : Scanner :=
  let s := s.advanceToQuote
  match s.peek? with
  | none => s.error .unterminatedString
  | some _ =>
    let s := s.advance
    s.addToken .string (.string (s.slice (s.start + 1) (s.current - 1)))

/-- The digits behind a point belong to a number, a point without a digit behind it does not. -/
def number (s : Scanner) : Scanner :=
  let s := s.advanceWhile isDigit
  let s :=
    if s.peek? = some (unit '.') && s.peekNext?.any isDigit then s.advance.advanceWhile isDigit
    else s
  s.addToken .number (.number (Number.ofLexeme s.lexeme))

def word (s : Scanner) : Scanner :=
  let s := s.advanceWhile isWordUnit
  s.addToken (.ofWord s.lexeme) .none

/-- Goes on to the end of the piece that starts with `u`, the unit just read. -/
def scanToken (s : Scanner) (u : CodeUnit) : Scanner :=
  match UnitClass.of u with
  | .sign kind => s.addToken kind .none
  | .extendableSign alone extended =>
    if s.peek? = some (unit '=') then s.advance.addToken extended .none
    else s.addToken alone .none
  | .slash =>
    if s.peek? = some (unit '/') then s.advance.advanceWhile (· ≠ newline)
    else s.addToken .slash .none
  | .space => s
  | .newline => s.newLine
  | .doubleQuote => s.string
  | .digit => s.number
  | .letter => s.word
  | .other => s.error (.unexpectedUnit u)

/-- The second scanner is in the same text as the first one, and not before it. -/
structure Onward (s t : Scanner) : Prop where
  source : t.source = s.source
  current : s.current ≤ t.current

section

variable {s t r : Scanner}

theorem Onward.refl : Onward s s := ⟨rfl, Nat.le_refl _⟩

theorem Onward.trans (h : Onward s t) (h' : Onward t r) : Onward s r :=
  ⟨h'.source.trans h.source, Nat.le_trans h.current h'.current⟩

theorem onward_advance : Onward s s.advance := ⟨rfl, Nat.le_succ _⟩

theorem onward_advanceWhile (p : CodeUnit → Bool) (s : Scanner) : Onward s (s.advanceWhile p) := by
  fun_induction advanceWhile p s with
  | case1 => exact .refl
  | case2 s u h hu ih => exact onward_advance.trans ih
  | case3 => exact .refl

theorem onward_advanceToQuote (s : Scanner) : Onward s s.advanceToQuote := by
  fun_induction advanceToQuote s with
  | case1 | case2 => exact .refl
  | case3 s h hu ih =>
    have hline : Onward s s.advance.newLine := ⟨rfl, Nat.le_succ _⟩
    exact hline.trans ih
  | case4 s u h hquote hnewline ih => exact onward_advance.trans ih

theorem onward_string : Onward s s.string := by
  unfold string
  dsimp only
  have hquote := onward_advanceToQuote s
  cases s.advanceToQuote.peek? with
  | none => exact ⟨hquote.source, hquote.current⟩
  | some u => exact ⟨hquote.source, Nat.le_trans hquote.current (Nat.le_succ _)⟩

theorem onward_number : Onward s s.number := by
  have hwhole := onward_advanceWhile isDigit s
  unfold number
  dsimp only
  split
  · have hfraction := hwhole.trans (onward_advance.trans (onward_advanceWhile isDigit _))
    exact ⟨hfraction.source, hfraction.current⟩
  · exact ⟨hwhole.source, hwhole.current⟩

theorem onward_scanToken (u : CodeUnit) : Onward s (s.scanToken u) := by
  have hword := onward_advanceWhile isWordUnit s
  unfold scanToken
  split
  case h_2 =>
    split
    · exact ⟨rfl, Nat.le_succ _⟩
    · exact ⟨rfl, Nat.le_refl _⟩
  case h_3 =>
    split
    · exact onward_advance.trans (onward_advanceWhile _ _)
    · exact ⟨rfl, Nat.le_refl _⟩
  case h_6 => exact onward_string
  case h_7 => exact onward_number
  case h_8 => exact ⟨hword.source, hword.current⟩
  all_goals exact ⟨rfl, Nat.le_refl _⟩

end

/-- Reads the text to its end; an error stops nothing. -/
def scanTokens (s : Scanner) : Scanner :=
  match _h : s.peek? with
  | none => s
  | some u => (s.begin.advance.scanToken u).scanTokens
  termination_by s.source.size - s.current
  decreasing_by
    have hlt := lt_size_of_peek? _h
    obtain ⟨hsource, hcurrent⟩ := onward_scanToken (s := s.begin.advance) u
    rw [hsource]
    simp only [begin, advance] at hcurrent ⊢
    omega

end Scanner

/-- A source text as its tokens, its scanning errors and the place where it ends. -/
structure Scan where
  tokens : List Token
  errors : List SourceError
  stop : Position

def scan (source : Text) : Scan :=
  let s := (Scanner.new source).scanTokens
  ⟨s.tokens.toList, s.errors.toList, ⟨s.line, s.column⟩⟩

end Lox
