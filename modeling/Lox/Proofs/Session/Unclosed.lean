import Lox.Proofs.Session.Delimiters

/-! Counting units and scanning agree on what is left open. A string that never ends takes the rest
of the text in both; otherwise the units count what the tokens count, whatever else is wrong with
the text. -/

namespace Lox

/-- How many tokens of a kind a text has. -/
def Scan.count (s : Scan) (kind : TokenKind) : Nat := s.tokens.countP (·.kind = kind)

namespace Delimiters

open Text

section Counts

variable (b : Balance) (ts : List Token)

/-- A delimiter of a kind is counted up, its partner down, and no other token changes the count. -/
theorem braces_takeAll :
    (b.takeAll ts).braces
      = b.braces + ts.countP (·.kind = .leftBrace) - ts.countP (·.kind = .rightBrace) := by
  induction ts generalizing b with
  | nil => simp
  | cons t ts ih =>
    rw [takeAll_cons, ih, List.countP_cons, List.countP_cons]
    cases h : t.kind <;> simp [Balance.take] <;> omega

private theorem parens_takeAll :
    (b.takeAll ts).parens
      = b.parens + ts.countP (·.kind = .leftParen) - ts.countP (·.kind = .rightParen) := by
  induction ts generalizing b with
  | nil => simp
  | cons t ts ih =>
    rw [takeAll_cons, ih, List.countP_cons, List.countP_cons]
    cases h : t.kind <;> simp [Balance.take] <;> omega

end Counts

section Strings

/-- A string without a closing quote is open at the end. -/
theorem openAfter_openString {body : Text} (b : Balance) (h : doubleQuote ∉ body) :
    openAfter .string b body = true := by
  induction body with
  | nil => rfl
  | cons u body ih =>
    obtain ⟨hu, hbody⟩ := List.ne_and_not_mem_of_not_mem_cons h
    have hmode : Mode.string.after u body = .string := if_neg hu.symm
    rw [openAfter, hmode]
    exact ih hbody

/-- A text is open after a string that never ends, whatever stands before it. -/
theorem openAfter_of_unterminated {p : Position} {t : Text} (b : Balance)
    (h : ∃ f ∈ Fragment.allFrom p t, f.kind = .unterminated) : openAfter .code b t = true := by
  induction t using Fragment.pieces_induction generalizing p b with
  | nil =>
    rw [Fragment.allFrom] at h
    simp at h
  | @piece kind text after hpiece ih =>
    rw [Fragment.allFrom_of_piece hpiece] at h
    obtain ⟨f, hf, hunterminated⟩ := h
    by_cases hkind : kind = .unterminated
    · subst hkind
      cases hpiece with
      | unterminated hbody =>
        rw [List.append_nil, openAfter_quote]
        exact openAfter_openString b hbody
    · rw [openAfter_piece b hpiece hkind]
      rcases List.mem_cons.mp hf with rfl | hf
      · exact absurd hunterminated hkind
      · exact ih _ ⟨f, hf, hunterminated⟩

/-- The scanner reports a string that never ends where it cuts one off. -/
theorem unterminated_reported_iff (input : Text) :
    (∃ e ∈ (scan input).errors, e.problem = .unterminatedString) ↔
      ∃ f ∈ Fragment.all input, f.kind = .unterminated := by
  rw [errors_scan]
  constructor
  · rintro ⟨e, he, hproblem⟩
    obtain ⟨f, hf, herror⟩ := List.mem_filterMap.mp he
    refine ⟨f, hf, ?_⟩
    unfold Fragment.error? at herror
    cases hkind : f.kind with
    | unterminated => rfl
    | unexpected u =>
      rw [hkind] at herror
      cases herror
      cases hproblem
    | _ =>
      rw [hkind] at herror
      cases herror
  · rintro ⟨f, hf, hkind⟩
    have herror : f.error? = some ⟨.unterminatedString, f.position⟩ := by
      simp only [Fragment.error?, hkind]
    exact ⟨_, List.mem_filterMap.mpr ⟨f, hf, herror⟩, rfl⟩

end Strings

/-- More of a text is to come exactly if scanning it reports a string that never ends, or finds more
opening than closing braces or more opening than closing parentheses. -/
theorem unclosed_iff_scan (input : Text) :
    unclosed input = true ↔
      (∃ e ∈ (scan input).errors, e.problem = .unterminatedString) ∨
        (scan input).count .rightBrace < (scan input).count .leftBrace ∨
          (scan input).count .rightParen < (scan input).count .leftParen := by
  rw [unterminated_reported_iff]
  by_cases hstring : ∃ f ∈ Fragment.all input, f.kind = .unterminated
  · exact iff_of_true (openAfter_of_unterminated .zero hstring) (.inl hstring)
  · have hends : ∀ f ∈ Fragment.all input, f.kind ≠ .unterminated :=
      fun f hf hkind => hstring ⟨f, hf, hkind⟩
    have hopen : unclosed input =
        openAfter .code (Balance.zero.takeAll (scan input).tokens) [] := by
      rw [tokens_scan]
      exact openAfter_allFrom .zero hends
    have hcounts : openAfter .code (Balance.zero.takeAll (scan input).tokens) [] = true ↔
        0 < (Balance.zero.takeAll (scan input).tokens).braces ∨
          0 < (Balance.zero.takeAll (scan input).tokens).parens := by
      simp [openAfter]
    rw [hopen, hcounts, braces_takeAll, parens_takeAll]
    simp only [hstring, false_or, Scan.count, Balance.zero]
    omega

/-- Neither the quote in the comment nor the parenthesis in the string opens anything, the
unexpected unit is passed over, and the brace is still open. -/
example : unclosed "\x7b # // \"\n print \"(\";" = true := by decide

end Delimiters

end Lox
