import Lox.Proofs.Parse.Grammar
import Lox.Proofs.Parse.Plain

/-! What the parser reads without an error is derived by the grammar, in the reading where every
`else` belongs to the nearest `if`. The depth that the parser is allowed is enough for sixteen
steps a token, so it never gives up for want of it. -/

namespace Lox.Grammar

namespace Level

/-- How many levels bind looser. -/
def rank : Level → Nat
  | logicOr => 0
  | logicAnd => 1
  | equality => 2
  | comparison => 3
  | term => 4
  | factor => 5

/-- The parser's operators of one level. -/
def row (l : Level) : List (TokenKind × InfixOp) := infixLevels.getD l.rank []

/-- The parser's operators of a level and of those that bind tighter. -/
def rows : Option Level → List (List (TokenKind × InfixOp))
  | none => []
  | some l => infixLevels.drop l.rank

theorem rows_some (l : Level) : rows (some l) = l.row :: rows l.tighter := by
  cases l <;> rfl

theorem lookup_row (l : Level) (k : TokenKind) : l.row.lookup k = l.operator? k := by
  cases l <;> cases k <;> rfl

end Level

theorem lookup_unaryOps (k : TokenKind) : unaryOps.lookup k = unaryOperator? k := by
  cases k <;> rfl

private theorem primary_of_operand? {nearest : Bool} {t : Token} {e : Expr Position}
    (h : t.operand? t.position = some e) : Derives nearest (.primary e) [t] := by
  unfold Token.operand? at h
  split at h <;> cases h
  · exact .falseWord ‹_›
  · exact .trueWord ‹_›
  · exact .nilWord ‹_›
  · exact .number ‹_›
  · exact .string ‹_›
  · exact .identifier ‹_›

namespace Derives

variable {nearest : Bool} {ph : Phrase} {ts us : List Token} {n : Position} {x : Name}

private theorem operators_of_reference (h : Derives nearest ph us) :
    ∀ l left, ph = .operators l left (.reference n x) → us = [] ∧ left = .reference n x := by
  induction h with
  | noOperator => rintro l left ⟨⟩; exact ⟨rfl, rfl⟩
  | @moreOperators _ _ op _ _ _ _ _ _ _ _ _ ih =>
    rintro l left ⟨⟩
    cases op <;> exact absurd (ih _ _ rfl).2 (by simp [InfixOp.build])
  | _ => rintro _ _ ⟨⟩

private theorem calls_of_reference (h : Derives nearest ph us) :
    ∀ callee, ph = .calls callee (.reference n x) → us = [] ∧ callee = .reference n x := by
  induction h with
  | noCall => rintro callee ⟨⟩; exact ⟨rfl, rfl⟩
  | moreCalls _ _ _ _ _ ih => rintro callee ⟨⟩; exact absurd (ih _ rfl).2 (by simp)
  | _ => rintro _ ⟨⟩

/-- Nothing but its name stands for a variable. -/
theorem tokens_of_reference {level : Option Level}
    (h : Derives nearest (.operation level (.reference n x)) ts) :
    ∃ t, ts = [t] ∧ t.kind = .identifier ∧ n = t.position ∧ x = t.lexeme := by
  generalize hph : Phrase.operation level (.reference n x) = ph at h
  induction h generalizing level with
  | level hleft hops ih =>
    cases hph
    obtain ⟨rfl, rfl⟩ := operators_of_reference hops _ _ rfl
    simpa using ih rfl
  | unary => cases hph
  | call hcallee hcalls =>
    cases hph
    obtain ⟨rfl, rfl⟩ := calls_of_reference hcalls _ rfl
    cases hcallee with
    | identifier hk => exact ⟨_, rfl, hk, rfl, rfl⟩
  | _ => cases hph

end Derives

end Lox.Grammar

namespace Lox.Parse

open Grammar

/-- The depth suffices for all tokens of which `P` holds, with `extra` steps to spare. -/
def Suffices (depth : Nat) (P : List Token → Prop) (extra : Nat) : Prop :=
  ∀ ts, P ts → 16 * ts.length + extra ≤ depth

/-- What has been read, off the front of tokens of which `P` holds, is a phrase. -/
def PhraseRead {α : Type} (P : List Token → Prop) (phrase : α → Phrase) (a : α)
    (rest : List Token) : Prop :=
  ∃ ts, P (ts ++ rest) ∧ Derives true (phrase a) ts

/-- A step reads a phrase off the front of tokens of which `P` holds. -/
abbrev ReadsPhrase {α : Type} (P : List Token → Prop) (p : Parse α) (phrase : α → Phrase) : Prop :=
  Triple P p (PhraseRead P phrase)

/-- What the steps of a depth read of expressions. -/
structure ReadsExpressions (depth : Nat) : Prop where
  expression : ∀ P, Suffices depth P 10 → ReadsPhrase P (expression depth) .expression
  operation : ∀ level P, Suffices depth P (3 + (Level.rows level).length) →
    ReadsPhrase P (operation depth (Level.rows level)) (.operation level)
  operationTail : ∀ (l : Level) left P, Suffices depth P 1 →
    ReadsPhrase P (operationTail depth l.row (Level.rows l.tighter) left) (.operators l left)
  unary : ∀ P, Suffices depth P 2 → ReadsPhrase P (unary depth) (.operation none)
  callTail : ∀ callee P, Suffices depth P 1 →
    ReadsPhrase P (callTail depth callee) (.calls callee)
  arguments : ∀ count P, Suffices depth P 11 →
    Triple P (arguments depth count) fun es rest => ∃ ts, P (ts ++ rest) ∧
      count + es.length ≤ argumentLimit ∧ Derives true (.argumentList es) ts
  primary : ∀ P, Suffices depth P 1 → ReadsPhrase P (primary depth) .primary

section

variable {depth : Nat} {P : List Token → Prop} {extra : Nat}

theorem Suffices.not (h : Suffices 0 P (extra + 1)) (ts : List Token) : ¬ P ts :=
  fun hP => absurd (h ts hP) (by omega)

/-- One step less for the same tokens. -/
theorem Suffices.step (h : Suffices (depth + 1) P (extra + 1)) : Suffices depth P extra :=
  fun ts hP => Nat.le_of_succ_le_succ (h ts hP)

/-- A token that has been read leaves sixteen steps for what comes after it. -/
theorem Suffices.token (h : Suffices depth P extra) {extra' : Nat} {Q : List Token → Prop}
    (he : extra' ≤ extra + 16) (hQ : ∀ rest, Q rest → ∃ ts, P ts ∧ rest.length < ts.length) :
    Suffices depth Q extra' := by
  intro rest hrest
  obtain ⟨ts, hts, hlength⟩ := hQ rest hrest
  have := h _ hts
  omega

/-- Tokens that have been read need no depth any more. -/
theorem Suffices.rest (h : Suffices depth P extra) {Q : List Token → Prop}
    (hQ : ∀ rest, Q rest → ∃ ts, P ts ∧ rest.length ≤ ts.length) : Suffices depth Q extra := by
  intro rest hrest
  obtain ⟨ts, hts, hlength⟩ := hQ rest hrest
  have := h _ hts
  omega

theorem Suffices.mono (h : Suffices depth P extra) {extra' : Nat} (he : extra' ≤ extra) :
    Suffices depth P extra' :=
  fun ts hts => Nat.le_trans (Nat.add_le_add_left he _) (h ts hts)

end

section

variable {depth : Nat} {P : List Token → Prop}

private theorem expression_reads (ih : ReadsExpressions depth) (h : Suffices (depth + 1) P 10) :
    ReadsPhrase P (expression (depth + 1)) .expression := by
  rw [expression_plain]
  refine (ih.operation (some .logicOr) P h.step).bind fun target => triple_accept ?_ ?_
  · exact Triple.pure fun rest ⟨⟨ts, hP, hd⟩, _⟩ => ⟨ts, hP, .operation hd⟩
  · intro sign hsign
    refine (ih.expression _ ?_).bind fun value => ?_
    · exact h.step.token (by omega) fun rest ⟨ts, hP, _⟩ => ⟨_, hP, by grind⟩
    split
    · refine Triple.pure fun rest ⟨us, ⟨ts, hP, ht⟩, hv⟩ => ?_
      obtain ⟨t, rfl, hk, rfl, rfl⟩ := ht.tokens_of_reference
      exact ⟨t :: sign :: us, by simpa using hP, .assignment hk hsign hv⟩
    · exact (triple_reportAt sign _).bind (Q := fun _ _ => False) fun _ =>
        Triple.pure fun _ => False.elim

private theorem operation_reads (ih : ReadsExpressions depth) (level : Option Level)
    (h : Suffices (depth + 1) P (3 + (Level.rows level).length)) :
    ReadsPhrase P (operation (depth + 1) (Level.rows level)) (.operation level) := by
  cases level with
  | none => exact ih.unary P h.step
  | some l =>
    rw [Level.rows_some] at h ⊢
    have hs : Suffices depth P (3 + (Level.rows l.tighter).length) := h.step
    rw [operation]
    refine (ih.operation l.tighter P hs).bind fun left => ?_
    refine (ih.operationTail l left _ ?_).weaken (fun _ => id) ?_
    · exact (hs.mono (by omega)).rest fun rest ⟨ts, hP, _⟩ => ⟨_, hP, by grind⟩
    · rintro e rest ⟨us, ⟨ts, hP, hleft⟩, hops⟩
      exact ⟨ts ++ us, by simpa using hP, .level hleft hops⟩

private theorem operationTail_reads (ih : ReadsExpressions depth) (l : Level) (left : Expr Position)
    (h : Suffices (depth + 1) P 1) :
    ReadsPhrase P (operationTail (depth + 1) l.row (Level.rows l.tighter) left)
      (.operators l left) := by
  rw [operationTail_plain]
  refine triple_acceptWith ?_ ?_
  · exact Triple.pure fun rest ⟨hP, _⟩ => ⟨[], hP, .noOperator⟩
  · intro op sign hsign
    rw [Level.lookup_row] at hsign
    have hlength : (Level.rows l.tighter).length ≤ 5 := by cases l <;> decide
    refine (ih.operation l.tighter _ ?_).bind fun right => ?_
    · exact h.step.token (by omega) fun rest hP => ⟨_, hP, by grind⟩
    refine (ih.operationTail l _ _ ?_).weaken (fun _ => id) ?_
    · exact h.step.token (by omega) fun rest ⟨ts, hP, _⟩ => ⟨_, hP, by grind⟩
    · rintro e rest ⟨us, ⟨ts, hP, hr⟩, hops⟩
      exact ⟨sign :: (ts ++ us), by simpa using hP, .moreOperators hsign hr hops⟩

private theorem unary_reads (ih : ReadsExpressions depth) (h : Suffices (depth + 1) P 2) :
    ReadsPhrase P (unary (depth + 1)) (.operation none) := by
  rw [unary_plain]
  refine triple_acceptWith ?_ ?_
  · refine (ih.primary _ ?_).bind fun callee => ?_
    · exact h.step.rest fun rest ⟨hP, _⟩ => ⟨_, hP, Nat.le_refl _⟩
    refine (ih.callTail callee _ ?_).weaken (fun _ => id) ?_
    · exact h.step.rest fun rest ⟨ts, ⟨hP, _⟩, _⟩ => ⟨_, hP, by grind⟩
    · rintro e rest ⟨us, ⟨ts, ⟨hP, _⟩, hp⟩, hc⟩
      exact ⟨ts ++ us, by simpa using hP, .call hp hc⟩
  · intro op sign hsign
    rw [lookup_unaryOps] at hsign
    refine (ih.unary _ ?_).bind fun operand => Triple.pure ?_
    · exact h.step.token (by omega) fun rest hP => ⟨_, hP, by grind⟩
    · rintro rest ⟨ts, hP, ht⟩
      exact ⟨sign :: ts, hP, .unary hsign ht⟩

private theorem callTail_reads (ih : ReadsExpressions depth) (callee : Expr Position)
    (h : Suffices (depth + 1) P 1) :
    ReadsPhrase P (callTail (depth + 1) callee) (.calls callee) := by
  rw [callTail_plain]
  refine triple_accept ?_ ?_
  · exact Triple.pure fun rest ⟨hP, _⟩ => ⟨[], hP, .noCall⟩
  · intro lparen hlparen
    have hrest (es : List (Expr Position)) :
        Triple (PhraseRead (fun rest => P (lparen :: rest)) .arguments es)
          (do
            let _ ← expect .rightParen .parenAfterArguments
            callTail depth (.call lparen.position callee es))
          (PhraseRead P (.calls callee)) := by
      refine triple_expect fun rparen hrparen => (ih.callTail _ _ ?_).weaken (fun _ => id) ?_
      · exact h.step.token (by omega) fun rest ⟨ts, hP, _⟩ => ⟨_, hP, by grind⟩
      · rintro e rest ⟨us, ⟨ts, hP, hes⟩, hc⟩
        exact ⟨lparen :: (ts ++ rparen :: us), by simpa using hP,
          .moreCalls hlparen hes hrparen hc⟩
    refine (triple_check _).bind fun closes => Triple.ite (fun _ => ?_) fun _ => ?_
    · exact (Triple.pure fun rest hP => ⟨[], hP, .noArguments⟩).bind hrest
    · refine (ih.arguments 0 _ ?_).bind fun es => (hrest es).weaken ?_ fun _ _ => id
      · exact h.step.token (by omega) fun rest hP => ⟨_, hP, by grind⟩
      · rintro rest ⟨ts, hP, hn, hes⟩
        exact ⟨ts, hP, .someArguments (by omega) hes⟩

private theorem arguments_reads (ih : ReadsExpressions depth) (count : Nat)
    (h : Suffices (depth + 1) P 11) :
    Triple P (arguments (depth + 1) count) fun es rest => ∃ ts, P (ts ++ rest) ∧
      count + es.length ≤ argumentLimit ∧ Derives true (.argumentList es) ts := by
  rw [arguments]
  refine triple_reportWhen _ ?_
  refine (ih.expression _ ?_).bind fun arg => triple_accept ?_ fun comma hcomma => ?_
  · exact h.step.rest fun rest ⟨_, hP⟩ => ⟨_, hP, Nat.le_refl _⟩
  · refine Triple.pure fun rest hread => ?_
    obtain ⟨⟨ts, ⟨hcount, hP⟩, he⟩, _⟩ := hread
    exact ⟨ts, hP, by grind, .lastArgument he⟩
  · refine (ih.arguments (count + 1) _ ?_).bind fun es => Triple.pure ?_
    · exact h.step.token (by omega) fun rest ⟨ts, ⟨_, hP⟩, _⟩ => ⟨_, hP, by grind⟩
    · rintro rest ⟨us, ⟨ts, ⟨_, hP⟩, he⟩, hn, hes⟩
      exact ⟨ts ++ comma :: us, by simpa using hP, by grind, .moreArguments he hcomma hes⟩

private theorem primary_reads (ih : ReadsExpressions depth) (h : Suffices (depth + 1) P 1) :
    ReadsPhrase P (primary (depth + 1)) .primary := by
  rw [primary_plain]
  refine triple_operandToken ?_ fun e => ?_
  · refine triple_accept ?_ fun lparen hlparen => ?_
    · simpa using triple_refuse (f := pure) _
    · refine (ih.expression _ ?_).bind fun inner => triple_expect fun rparen hrparen =>
        Triple.pure ?_
      · exact h.step.token (by omega) fun rest hP => ⟨_, hP, by grind⟩
      · rintro rest ⟨ts, hP, he⟩
        exact ⟨lparen :: (ts ++ [rparen]), by simpa using hP, .grouping hlparen he hrparen⟩
  · exact Triple.pure fun rest ⟨t, ht, hP⟩ => ⟨[t], hP, primary_of_operand? ht⟩

end

theorem readsExpressions (depth : Nat) : ReadsExpressions depth := by
  induction depth with
  | zero =>
    constructor
    · exact fun P h => triple_stuck h.not
    · intro level P h
      have hone : Suffices 0 P (0 + 1) := h.mono (by omega)
      exact triple_stuck hone.not
    · exact fun _ _ P h => triple_stuck h.not
    · exact fun P h => triple_stuck h.not
    · exact fun _ P h => triple_stuck h.not
    · exact fun _ P h => triple_stuck h.not
    · exact fun P h => triple_stuck h.not
  | succ depth ih =>
    constructor
    · exact fun P => expression_reads ih
    · exact fun level P => operation_reads ih level
    · exact fun l left P => operationTail_reads ih l left
    · exact fun P => unary_reads ih
    · exact fun callee P => callTail_reads ih callee
    · exact fun count P => arguments_reads ih count
    · exact fun P => primary_reads ih

end Lox.Parse
