import Mathlib.Data.List.TakeWhile
import Lox.Proofs.Parse.ReadProgram
import Lox.Proofs.Source.Scanner
import Lox.Session.Console

/-! The console never waits for more of a program that is complete. Units are counted as the scanner
cuts them into tokens, so what is open after a text depends on its tokens alone, and the tokens of
every phrase of the grammar close what they open. -/

namespace Lox.Delimiters

open Text

def Balance.take (b : Balance) : TokenKind → Balance
  | .leftBrace => { b with braces := b.braces + 1 }
  | .rightBrace => { b with braces := b.braces - 1 }
  | .leftParen => { b with parens := b.parens + 1 }
  | .rightParen => { b with parens := b.parens - 1 }
  | _ => b

def Balance.takeAll (b : Balance) (ts : List Token) : Balance := ts.foldl (·.take ·.kind) b

def Balance.takeFragment (b : Balance) : FragmentKind → Balance
  | .token kind => b.take kind
  | _ => b

section Units

variable {u : CodeUnit} {rest : Text} (b : Balance)

/-- A unit that is no delimiter and starts neither a string nor a comment. -/
structure IsPlain (u : CodeUnit) : Prop where
  count (b : Balance) : b.count u = b
  quote : u ≠ doubleQuote
  slash : u ≠ unit '/'

theorem count_of_no_sign (h : TokenKind.signs.lookup u = none) : b.count u = b := by
  unfold Balance.count
  split_ifs with hopen hclose hlparen hrparen
  · rw [hopen] at h; exact absurd h (by decide)
  · rw [hclose] at h; exact absurd h (by decide)
  · rw [hlparen] at h; exact absurd h (by decide)
  · rw [hrparen] at h; exact absurd h (by decide)
  · rfl

/-- A sign is counted as the token that it is. -/
theorem count_of_mem_signs : ∀ sign ∈ TokenKind.signs, b.count sign.1 = b.take sign.2 := by
  unfold TokenKind.signs
  simp only [List.forall_mem_cons]
  exact ⟨rfl, rfl, rfl, rfl, rfl, rfl, rfl, rfl, rfl, rfl, rfl, nofun⟩

theorem isPlain_of_class {p : CodeUnit → Bool} (hsigns : ∀ sign ∈ TokenKind.signs, p sign.1 = false)
    (hquote : p doubleQuote = false) (hslash : p (unit '/') = false) (h : p u = true) :
    IsPlain u := by
  have hne {v : CodeUnit} (hv : p v = false) : u ≠ v := by
    rintro rfl
    rw [hv] at h
    cases h
  exact ⟨fun b => count_of_no_sign b (Fragment.lookup_eq_none_of hsigns h), hne hquote, hne hslash⟩

theorem isPlain_of_wordUnit (h : isWordUnit u = true) : IsPlain u :=
  isPlain_of_class (by decide) (by decide) (by decide) h

private theorem isPlain_of_digit (h : isDigit u = true) : IsPlain u :=
  isPlain_of_wordUnit (Fragment.isWordUnit_of_digit h)

private theorem isPlain_of_space (h : Fragment.isSpace u = true) : IsPlain u :=
  isPlain_of_class (by decide) (by decide) (by decide) h

theorem isPlain_of_blank (h : isBlank u = true) : IsPlain u :=
  isPlain_of_class (by decide) (by decide) (by decide) h

private theorem isPlain_of_extendableSign {kinds : TokenKind × TokenKind}
    (h : (u, kinds) ∈ TokenKind.extendableSigns) : IsPlain u := by
  have hsigns : ∀ sign ∈ TokenKind.extendableSigns, TokenKind.signs.lookup sign.1 = none ∧
      sign.1 ≠ doubleQuote ∧ sign.1 ≠ unit '/' := by decide
  obtain ⟨hsign, hquote, hslash⟩ := hsigns _ h
  exact ⟨fun b => count_of_no_sign b hsign, hquote, hslash⟩

/-- A unit that starts no token is plain. -/
theorem isPlain_of_unexpected (h : ∀ kind tail after, ¬ Fragment.Lexeme kind (u :: tail) after) :
    IsPlain u := by
  refine ⟨fun b => count_of_no_sign b ?_, ?_, ?_⟩
  · refine Option.eq_none_iff_forall_ne_some.mpr fun kind hkind => ?_
    exact h kind [] [] (.sign (mem_of_lookup hkind))
  · rintro rfl
    exact h .string _ [] (.string (List.not_mem_nil (a := doubleQuote)))
  · rintro rfl
    exact h .slash [] [] (.slash nofun)

/-- In code, a unit that starts no string and no comment only counts. -/
theorem openAfter_code (hquote : u ≠ doubleQuote)
    (hslash : ¬ (u = unit '/' ∧ rest.head? = some (unit '/'))) :
    openAfter .code b (u :: rest) = openAfter .code (b.count u) rest := by
  simp [openAfter, Mode.after, hquote, hslash]

theorem openAfter_plain (h : IsPlain u) :
    openAfter .code b (u :: rest) = openAfter .code b rest := by
  rw [openAfter_code b h.quote (fun hslash => h.slash hslash.1), h.count]

theorem openAfter_plains {t : Text} (h : ∀ v ∈ t, IsPlain v) :
    openAfter .code b (t ++ rest) = openAfter .code b rest := by
  induction t with
  | nil => rfl
  | cons u t ih =>
    rw [List.cons_append, openAfter_plain b (h u List.mem_cons_self)]
    exact ih fun v hv => h v (List.mem_cons_of_mem u hv)

theorem openAfter_quote : openAfter .code b (doubleQuote :: rest) = openAfter .string b rest :=
  rfl

private theorem openAfter_slashes :
    openAfter .code b (unit '/' :: unit '/' :: rest) = openAfter .comment b rest :=
  rfl

/-- A string is over after its closing quote. -/
theorem openAfter_string {body : Text} (h : doubleQuote ∉ body) :
    openAfter .string b (body ++ doubleQuote :: rest) = openAfter .code b rest := by
  induction body with
  | nil => rfl
  | cons u body ih =>
    obtain ⟨hu, hbody⟩ := List.ne_and_not_mem_of_not_mem_cons h
    have hmode : Mode.string.after u (body ++ doubleQuote :: rest) = .string := if_neg hu.symm
    rw [List.cons_append, openAfter, hmode]
    exact ih hbody

/-- A comment ends in front of its new line. -/
theorem openAfter_comment {body after : Text} (hbody : newline ∉ body)
    (hstop : Stops (· ≠ newline) after) :
    openAfter .comment b (body ++ after) = openAfter .code b after := by
  induction body with
  | nil =>
    cases after with
    | nil => rfl
    | cons v after =>
      have hv : v = newline := by simpa using hstop v rfl
      rw [hv]
      rfl
  | cons u body ih =>
    obtain ⟨hu, hbody⟩ := List.ne_and_not_mem_of_not_mem_cons hbody
    have hmode : Mode.comment.after u (body ++ after) = .comment := if_neg hu.symm
    rw [List.cons_append, openAfter, hmode]
    exact ih hbody

/-- A word is no delimiter. -/
theorem take_ofWord (word : Text) : b.take (.ofWord word) = b := by
  have hkeywords : ∀ p ∈ TokenKind.keywords, b.take p.2 = b := by
    unfold TokenKind.keywords
    simp only [List.forall_mem_cons]
    exact ⟨rfl, rfl, rfl, rfl, rfl, rfl, rfl, rfl, rfl, rfl, rfl, rfl, rfl, rfl, rfl, rfl, nofun⟩
  unfold TokenKind.ofWord
  cases h : TokenKind.keywords.lookup word with
  | none => rfl
  | some kind => exact hkeywords _ (mem_of_lookup h)

/-- The signs that an equals sign may follow are no delimiters. -/
theorem take_extendableSign :
    ∀ p ∈ TokenKind.extendableSigns, b.take p.2.1 = b ∧ b.take p.2.2 = b := by
  unfold TokenKind.extendableSigns
  simp only [List.forall_mem_cons]
  exact ⟨⟨rfl, rfl⟩, ⟨rfl, rfl⟩, ⟨rfl, rfl⟩, ⟨rfl, rfl⟩, nofun⟩

end Units

section Fragments

variable {text after : Text} (b : Balance)

/-- Of a lexeme, only a delimiter is counted. -/
theorem openAfter_lexeme {kind : TokenKind} (h : Fragment.Lexeme kind text after) :
    openAfter .code b (text ++ after) = openAfter .code (b.take kind) after := by
  cases h with
  | @sign u kind _ hsign =>
    have hsigns : ∀ sign ∈ TokenKind.signs, sign.1 ≠ doubleQuote ∧ sign.1 ≠ unit '/' := by
      decide
    obtain ⟨hquote, hslash⟩ := hsigns _ hsign
    rw [List.singleton_append, openAfter_code b hquote (fun h => hslash h.1),
      count_of_mem_signs b _ hsign]
  | @alone u kind extended _ hsign _ =>
    rw [(take_extendableSign b _ hsign).1]
    exact openAfter_plain b (isPlain_of_extendableSign hsign)
  | @extended u alone kind _ hsign =>
    rw [(take_extendableSign b _ hsign).2]
    refine openAfter_plains b (List.forall_mem_cons.mpr ⟨isPlain_of_extendableSign hsign, ?_⟩)
    exact List.forall_mem_singleton.mpr ⟨fun _ => rfl, by decide, by decide⟩
  | slash hslash => exact openAfter_code b (by decide) fun h => hslash h.2
  | string hbody =>
    rw [List.cons_append, List.append_assoc, openAfter_quote]
    exact openAfter_string b hbody
  | whole hu hdigits _ _ =>
    exact openAfter_plains b (List.forall_mem_cons.mpr
      ⟨isPlain_of_digit hu, fun v hv => isPlain_of_digit (hdigits v hv)⟩)
  | decimal hu hdigits hv hfraction _ =>
    refine openAfter_plains b (List.forall_mem_cons.mpr ⟨isPlain_of_digit hu, fun w hw => ?_⟩)
    simp only [List.mem_append, List.mem_cons] at hw
    rcases hw with hw | rfl | rfl | hw
    · exact isPlain_of_digit (hdigits w hw)
    · exact ⟨fun _ => rfl, by decide, by decide⟩
    · exact isPlain_of_digit hv
    · exact isPlain_of_digit (hfraction w hw)
  | word hu htail _ =>
    rw [take_ofWord]
    refine openAfter_plains b (List.forall_mem_cons.mpr ⟨isPlain_of_wordUnit ?_, fun v hv => ?_⟩)
    · rw [isWordUnit, hu, Bool.true_or]
    · exact isPlain_of_wordUnit (htail v hv)

/-- A piece is passed over as a whole, if it ends before the text does. -/
theorem openAfter_piece {kind : FragmentKind} (h : Fragment.Piece kind text after)
    (hends : kind ≠ .unterminated) :
    openAfter .code b (text ++ after) = openAfter .code (b.takeFragment kind) after := by
  cases h with
  | token hlexeme => exact openAfter_lexeme b hlexeme
  | space hu => exact openAfter_plain b (isPlain_of_space hu)
  | comment hbody hstop =>
    rw [List.cons_append, List.cons_append, openAfter_slashes]
    exact openAfter_comment b hbody hstop
  | unexpected hspace hnone => exact openAfter_plain b (isPlain_of_unexpected hnone)
  | unterminated => exact absurd rfl hends

private theorem takeAll_cons_fragment (f : Fragment) (fs : List Fragment) :
    b.takeAll ((f :: fs).filterMap Fragment.token?)
      = (b.takeFragment f.kind).takeAll (fs.filterMap Fragment.token?) := by
  obtain ⟨kind, text, position⟩ := f
  cases kind <;> rfl

/-- What is open after a text in which every string ends depends on its tokens alone. -/
theorem openAfter_allFrom {p : Position} {t : Text} (b : Balance)
    (h : ∀ f ∈ Fragment.allFrom p t, f.kind ≠ .unterminated) :
    openAfter .code b t
      = openAfter .code (b.takeAll ((Fragment.allFrom p t).filterMap Fragment.token?)) [] := by
  induction t using Fragment.pieces_induction generalizing p b with
  | nil =>
    rw [Fragment.allFrom]
    rfl
  | piece hpiece ih =>
    rw [Fragment.allFrom_of_piece hpiece] at h ⊢
    obtain ⟨hends, hafter⟩ := List.forall_mem_cons.mp h
    rw [openAfter_piece b hpiece hends, ih _ hafter, takeAll_cons_fragment]

end Fragments

section Phrases

open Grammar

variable {nearest : Bool} {ph : Phrase} {ts us : List Token} (b : Balance)

@[simp] theorem takeAll_nil : b.takeAll [] = b := rfl

@[simp] theorem takeAll_cons (t : Token) : b.takeAll (t :: ts) = (b.take t.kind).takeAll ts := rfl

@[simp] theorem takeAll_append : b.takeAll (ts ++ us) = (b.takeAll ts).takeAll us :=
  List.foldl_append

private theorem take_operator {l : Level} {kind : TokenKind} {op : InfixOp}
    (h : l.operator? kind = some op) : b.take kind = b := by
  cases l <;> cases kind <;> first | rfl | cases h

private theorem take_unaryOperator {kind : TokenKind} {op : UnaryOp}
    (h : unaryOperator? kind = some op) : b.take kind = b := by
  cases kind <;> first | rfl | cases h

/-- The tokens of a phrase close what they open. -/
theorem takeAll_of_derives (h : Derives nearest ph ts) : b.takeAll ts = b := by
  induction h generalizing b with
  | moreOperators hsign _ _ ihright ihothers => simp [take_operator b hsign, ihright, ihothers]
  | unary hsign _ ih => simp [take_unaryOperator b hsign, ih]
  | _ => simp_all [Balance.take]

/-- A text that is read without an error leaves nothing open. -/
theorem unclosed_of_errors_eq_nil {input : Text} (h : (parse input).errors = []) :
    unclosed input = false := by
  have hparse : parse? input = .ok (parse input).program := parse?_eq_ok.mpr ⟨h, rfl⟩
  have hscan : (scan input).errors = [] := (List.append_eq_nil_iff.mp h).1
  have hfragments : ∀ f ∈ Fragment.all input, f.kind ≠ .unterminated := by
    intro f hf hkind
    rw [errors_scan] at hscan
    have hnone : f.error? = none := List.filterMap_eq_nil_iff.mp hscan f hf
    simp [Fragment.error?, hkind] at hnone
  have htokens := takeAll_of_derives .zero (Parse.isNearestProgram_of_parse? hparse)
  calc unclosed input
      = openAfter .code (Balance.zero.takeAll (scan input).tokens) [] := by
        rw [tokens_scan]
        exact openAfter_allFrom .zero hfragments
    _ = openAfter .code .zero [] := by rw [htokens]
    _ = false := rfl

end Phrases

section Blanks

variable {s : Text} (b : Balance)

private theorem openAfter_blanks (mode : Mode) (h : ∀ u ∈ s, isBlank u) :
    openAfter mode b s = openAfter mode b [] := by
  induction s generalizing mode with
  | nil => rfl
  | cons u s ih =>
    have hu := isPlain_of_blank (h u List.mem_cons_self)
    have hs : ∀ v ∈ s, isBlank v := fun v hv => h v (List.mem_cons_of_mem u hv)
    cases mode with
    | code => rw [openAfter_plain b hu, ih _ hs]
    | string =>
      have hmode : openAfter .string b (u :: s) = openAfter .string b s := by
        simp [openAfter, Mode.after, hu.quote]
      rw [hmode, ih _ hs]
    | comment =>
      have hmode : openAfter .comment b (u :: s) = openAfter (.after .comment u s) b s := rfl
      rw [hmode, ih _ hs, Mode.after]
      split <;> rfl

private theorem openAfter_append_blanks (mode : Mode) (t : Text) (h : ∀ u ∈ s, isBlank u) :
    openAfter mode b (t ++ s) = openAfter mode b t := by
  induction t generalizing mode b with
  | nil => exact openAfter_blanks b mode h
  | cons u t ih =>
    have hhead : (t ++ s).head? = some (unit '/') ↔ t.head? = some (unit '/') := by
      cases t with
      | cons v t => exact Iff.rfl
      | nil =>
        refine ⟨fun hslash => ?_, nofun⟩
        exact absurd rfl (isPlain_of_blank (h _ (List.mem_of_mem_head? hslash))).slash
    have hafter : mode.after u (t ++ s) = mode.after u t := by
      unfold Mode.after
      simp only [hhead]
    rw [List.cons_append, openAfter, hafter, ih]
    rfl

/-- The blanks at either end open and close nothing. -/
theorem unclosed_trim (t : Text) : unclosed (trim t) = unclosed t := by
  have hend (s : Text) :
      openAfter .code .zero s
        = openAfter .code .zero (s.reverse.dropWhile isBlank).reverse := by
    have hs : s =
        (s.reverse.dropWhile isBlank).reverse ++ (s.reverse.takeWhile isBlank).reverse := by
      rw [← List.reverse_append, List.takeWhile_append_dropWhile, List.reverse_reverse]
    conv_lhs => rw [hs]
    refine openAfter_append_blanks .zero .code _ fun u hu => ?_
    exact List.mem_takeWhile_imp (List.mem_reverse.mp hu)
  have hstart : openAfter .code .zero t = openAfter .code .zero (t.dropWhile isBlank) := by
    conv_lhs => rw [← List.takeWhile_append_dropWhile (p := isBlank) (l := t)]
    exact openAfter_plains .zero fun u hu => isPlain_of_blank (List.mem_takeWhile_imp hu)
  exact (hstart.trans (hend _)).symm

end Blanks

end Lox.Delimiters

namespace Lox.Console

open Text

def typed (c : Console) (line : Text) : Text :=
  match c.pending with
  | some text => text ++ [newline] ++ line
  | none => line

private theorem pending_of_feedText {c c' : Console} {host : Host} {work : Nat}
    {text pending : Text}
    {transcript : Transcript} (h : c.feedText host work text = some (transcript, c'))
    (hpending : c'.pending = some pending) : pending = text ∧ Delimiters.unclosed text = true := by
  revert h
  unfold feedText
  split_ifs with hopen
  · rintro ⟨⟩
    exact ⟨(Option.some.inj hpending).symm, hopen⟩
  · dsimp only
    split
    · rintro ⟨⟩
      cases hpending
    · intro h
      obtain ⟨answer, -, hanswer⟩ := Option.map_eq_some_iff.mp h
      cases hanswer
      cases hpending

/-- A console waits only for an input that is still open. -/
theorem pending_of_feed {c c' : Console} {host : Host} {work : Nat} {line text : Text}
    {transcript : Transcript} (h : c.feed host work line = some (transcript, c'))
    (htext : c'.pending = some text) : text = c.typed line ∧ Delimiters.unclosed text = true := by
  revert h
  unfold feed typed
  cases hpending : c.pending with
  | some gathered =>
    intro h
    obtain ⟨rfl, hopen⟩ := pending_of_feedText h htext
    exact ⟨rfl, hopen⟩
  | none =>
    dsimp only
    by_cases hcommand : isCommand (trim line)
    · rw [if_pos hcommand]
      rintro ⟨⟩
      cases htext
    · rw [if_neg hcommand]
      intro h
      obtain ⟨rfl, hopen⟩ := pending_of_feedText h htext
      exact ⟨rfl, hopen⟩

/-- A program without errors is never held back: nothing in it is open, and while the console waits
for more, what has been typed is no program, neither as it is nor without the blanks at its ends. -/
theorem programs_not_withheld :
    (∀ input, (parse input).errors = [] → Delimiters.unclosed input = false) ∧
      ∀ (c c' : Console) (host : Host) (work : Nat) (line text : Text) (transcript : Transcript),
        c.feed host work line = some (transcript, c') → c'.pending = some text →
          text = c.typed line ∧ (parse text).errors ≠ [] ∧ (parse (trim text)).errors ≠ [] := by
  refine ⟨fun input => Delimiters.unclosed_of_errors_eq_nil, ?_⟩
  intro c c' host work line text transcript hfeed htext
  obtain ⟨htyped, hopen⟩ := pending_of_feed hfeed htext
  refine ⟨htyped, fun herrors => ?_, fun herrors => ?_⟩
  · rw [Delimiters.unclosed_of_errors_eq_nil herrors] at hopen
    cases hopen
  · have hclosed := Delimiters.unclosed_of_errors_eq_nil herrors
    rw [Delimiters.unclosed_trim, hopen] at hclosed
    cases hclosed

/-- The console waits after the head of a function, and not for the brace in a string. -/
theorem programs_not_withheld_function :
    Delimiters.unclosed "fun f(a) \x7b print \"\x7b\"; \x7d // (" = false ∧
      (parse "fun f(a) \x7b").errors ≠ [] := by
  obtain ⟨hclosed, hpending⟩ := programs_not_withheld
  refine ⟨hclosed _ (by decide +kernel), ?_⟩
  exact (hpending (.new true) _ (.standard (.stopped 0)) 0 "fun f(a) \x7b" _ _ rfl rfl).2.1

end Lox.Console
