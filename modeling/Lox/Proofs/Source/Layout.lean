import Mathlib.Data.List.DropRight
import Lox.Proofs.Source.Scanner

/-! The layout of a source text. Scanning loses no unit: a text is the lexemes of its tokens, with
white space, comments and faulty pieces between them, and every place is counted from the start of
the text. A lexeme is the same token wherever white space follows it. -/

namespace Lox

open Text Fragment

section Layout

/-- The place behind a text: one line for each newline, one column for each unit behind the last. -/
def Position.behind (before : Text) : Position :=
  ⟨1 + before.count newline, 1 + (before.rtakeWhile (· ≠ newline)).length⟩

theorem Position.start_after (t : Text) : start.after t = behind t := by
  induction t using List.reverseRecOn with
  | nil => rfl
  | append_singleton t u ih =>
    rw [after_append, ih, after_cons, after_nil, advance, behind, behind, List.count_append]
    by_cases hline : u = newline
    · rw [if_pos hline, hline, List.rtakeWhile_concat_neg _ _ _ (by decide)]
      rfl
    · rw [if_neg hline, List.rtakeWhile_concat_pos _ _ _ (by simpa using hline),
        List.count_singleton, if_neg (by simpa using hline), List.length_append]
      rfl

theorem Position.behind_append (before t : Text) :
    behind (before ++ t) = (behind before).after t := by
  rw [← start_after, after_append, start_after]

/-- A text behind another one, cut into pieces: the tokens and the errors in their order, each at
the place where its piece starts. -/
inductive Layout : Text → Text → List Token → List SourceError → Prop where
  | nil {before} : Layout before [] [] []
  | token {before kind lexeme after tokens errors} : Piece (.token kind) lexeme after →
      Layout (before ++ lexeme) after tokens errors →
      Layout before (lexeme ++ after) (.spelled kind lexeme (.behind before) :: tokens) errors
  | space {before text after tokens errors} : Piece .space text after →
      Layout (before ++ text) after tokens errors → Layout before (text ++ after) tokens errors
  | comment {before text after tokens errors} : Piece .comment text after →
      Layout (before ++ text) after tokens errors → Layout before (text ++ after) tokens errors
  | unexpected {before u text after tokens errors} : Piece (.unexpected u) text after →
      Layout (before ++ text) after tokens errors →
      Layout before (text ++ after) tokens (⟨.unexpectedUnit u, .behind before⟩ :: errors)
  | unterminated {before text after tokens errors} : Piece .unterminated text after →
      Layout (before ++ text) after tokens errors →
      Layout before (text ++ after) tokens (⟨.unterminatedString, .behind before⟩ :: errors)

namespace Layout

variable {before t : Text} {tokens : List Token} {errors : List SourceError}

private theorem allFrom (before t : Text) :
    Layout before t ((Fragment.allFrom (.behind before) t).filterMap token?)
      ((Fragment.allFrom (.behind before) t).filterMap error?) := by
  induction t using pieces_induction generalizing before with
  | nil =>
    rw [Fragment.allFrom]
    exact nil
  | @piece kind text after hpiece ih =>
    have hrest := ih (before ++ text)
    rw [Position.behind_append] at hrest
    rw [allFrom_of_piece hpiece]
    cases kind with
    | token kind => exact token hpiece hrest
    | space => exact space hpiece hrest
    | comment => exact comment hpiece hrest
    | unexpected u => exact unexpected hpiece hrest
    | unterminated => exact unterminated hpiece hrest

private theorem eq_allFrom (h : Layout before t tokens errors) :
    tokens = (Fragment.allFrom (.behind before) t).filterMap token? ∧
      errors = (Fragment.allFrom (.behind before) t).filterMap error? := by
  induction h with
  | nil =>
    rw [Fragment.allFrom]
    exact ⟨rfl, rfl⟩
  | token hpiece _ ih | space hpiece _ ih | comment hpiece _ ih | unexpected hpiece _ ih
  | unterminated hpiece _ ih =>
    rw [Position.behind_append] at ih
    rw [allFrom_of_piece hpiece, ih.1, ih.2]
    exact ⟨rfl, rfl⟩

theorem iff_scan {source : Text} : Layout [] source tokens errors ↔
    tokens = (scan source).tokens ∧ errors = (scan source).errors := by
  rw [scan_eq]
  refine ⟨fun h => h.eq_allFrom, ?_⟩
  rintro ⟨rfl, rfl⟩
  exact .allFrom [] source

end Layout

/-- Scanning lays a text out without a gap, in the only way there is, and ends where the text
ends. -/
theorem scan_layout (source : Text) :
    (∀ tokens errors, Layout [] source tokens errors ↔
      tokens = (scan source).tokens ∧ errors = (scan source).errors) ∧
    (scan source).stop = .behind source := by
  refine ⟨fun tokens errors => Layout.iff_scan, ?_⟩
  rw [scan_eq]
  exact Position.start_after source

end Layout

section Spaced

/-- White space, and comments with the newlines that close them. -/
inductive Blank : Text → Prop where
  | nil : Blank []
  | space {u rest} : isSpace u = true → Blank rest → Blank (u :: rest)
  | comment {body rest} : newline ∉ body → Blank rest →
      Blank (unit '/' :: unit '/' :: (body ++ newline :: rest))

/-- What keeps a lexeme apart from the next one. -/
inductive Separator : Text → Prop where
  | mk {u rest} : isSpace u = true → Blank rest → Separator (u :: rest)

/-- The lexemes of tokens, with a separator behind each. -/
def spaced (tokens : List Token) (separators : List Text) : Text :=
  (List.zipWith (fun t separator => t.lexeme ++ separator) tokens separators).flatten

/-- All of a token but its place. -/
def Token.content (t : Token) : TokenKind × Text × TokenLiteral := (t.kind, t.lexeme, t.literal)

variable {before after text : Text} {kind : TokenKind} {tokens : List Token}
  {errors : List SourceError}

theorem Layout.white {u : CodeUnit} (hu : isSpace u = true)
    (h : Layout (before ++ [u]) after tokens errors) : Layout before (u :: after) tokens errors :=
  .space (.space hu) h

private theorem Layout.blank (hblank : Blank text)
    (h : Layout (before ++ text) after tokens errors) :
    Layout before (text ++ after) tokens errors := by
  induction hblank generalizing before with
  | nil => rwa [List.append_nil] at h
  | @space u rest hu _ ih =>
    rw [List.append_cons] at h
    exact .white hu (ih h)
  | @comment body rest hbody _ ih =>
    have hcomment : Piece .comment (unit '/' :: unit '/' :: body) (newline :: (rest ++ after)) :=
      .comment hbody (stops_cons (by decide) _)
    have hrest : Layout (before ++ unit '/' :: unit '/' :: body) (newline :: (rest ++ after))
        tokens errors := .white (by decide) (ih (by simpa using h))
    simpa using Layout.comment hcomment hrest

/-- A token has a lexeme of its kind and stands for what that spells. -/
theorem Layout.exists_lexeme (h : Layout before text tokens errors) : ∀ t ∈ tokens,
    t.literal = t.kind.literal t.lexeme ∧ ∃ rest, Lexeme t.kind t.lexeme rest := by
  induction h with
  | nil => exact nofun
  | @token _ _ _ after _ _ hpiece _ ih =>
    cases hpiece with
    | token hlexeme => exact List.forall_mem_cons.mpr ⟨⟨rfl, after, hlexeme⟩, ih⟩
  | space _ _ ih | comment _ _ ih | unexpected _ _ ih | unterminated _ _ ih => exact ih

/-- Lexemes that are kept apart are the lexemes of tokens with the same contents. -/
theorem Layout.of_spaced {separators : List Text}
    (h : ∀ t ∈ tokens, t.literal = t.kind.literal t.lexeme ∧
      ∃ rest, Lexeme t.kind t.lexeme rest)
    (hlength : separators.length = tokens.length) (hseparators : ∀ s ∈ separators, Separator s)
    (before : Text) : ∃ ts, Layout before (spaced tokens separators) ts [] ∧
      ts.map Token.content = tokens.map Token.content := by
  induction tokens generalizing separators before with
  | nil => exact ⟨[], .nil, rfl⟩
  | cons t tokens ih =>
    cases separators with
    | nil => cases hlength
    | cons separator separators =>
      obtain ⟨⟨hliteral, rest, hlexeme⟩, htokens⟩ := List.forall_mem_cons.mp h
      obtain ⟨hseparator, hrest⟩ := List.forall_mem_cons.mp hseparators
      obtain ⟨ts, hlayout, hcontent⟩ := ih htokens (Nat.succ.inj hlength) hrest
        (before ++ t.lexeme ++ separator)
      cases hseparator with
      | @mk u blank hu hblank =>
      refine ⟨.spelled t.kind t.lexeme (.behind before) :: ts, ?_, ?_⟩
      · have htext : spaced (t :: tokens) ((u :: blank) :: separators) =
            t.lexeme ++ u :: (blank ++ spaced tokens separators) := by
          simp [spaced]
        rw [htext]
        refine .token (.token (hlexeme.before_space hu _)) ?_
        exact .white hu (.blank hblank (by simpa using hlayout))
      · rw [List.map_cons, List.map_cons, hcontent, Token.content, Token.content, hliteral]
        rfl

/-- Lexemes are scanned alike wherever they stand. -/
theorem scan_spaced (source : Text) {separators : List Text}
    (hlength : separators.length = (scan source).tokens.length)
    (hseparators : ∀ s ∈ separators, Separator s) :
    let respaced := scan (spaced (scan source).tokens separators)
    respaced.errors = [] ∧
      respaced.tokens.map Token.content = (scan source).tokens.map Token.content := by
  intro respaced
  have hlayout : Layout [] source _ _ := Layout.iff_scan.mpr ⟨rfl, rfl⟩
  obtain ⟨ts, hrespaced, hcontent⟩ :=
    Layout.of_spaced hlayout.exists_lexeme hlength hseparators []
  obtain ⟨htokens, herrors⟩ := Layout.iff_scan.mp hrespaced
  exact ⟨herrors.symm, (congrArg (List.map Token.content) htokens).symm.trans hcontent⟩

theorem scan_spaced_comment :
    let source : Text := "x=1.@//"
    let separators : List Text := [[newline], [unit ' '], [unit '\t'],
      unit ' ' :: unit '/' :: unit '/' :: (("=" : Text) ++ newline :: [])]
    let respaced := scan (spaced (scan source).tokens separators)
    respaced.errors = [] ∧
      respaced.tokens.map Token.content = (scan source).tokens.map Token.content := by
  intro source separators
  refine scan_spaced source (by decide +kernel) ?_
  simp only [separators, List.forall_mem_cons]
  exact ⟨.mk (by decide) .nil, .mk (by decide) .nil, .mk (by decide) .nil,
    .mk (by decide) (.comment (by decide) .nil), nofun⟩

end Spaced

end Lox
