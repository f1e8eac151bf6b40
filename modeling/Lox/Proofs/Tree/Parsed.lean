import Lox.Proofs.Parse.FollowProgram
import Lox.Proofs.Source.Layout
import Lox.Proofs.Tree.Encoded

/-! The JSON form has a place for the tree of every source text; a text in that form has one only if
all numbers are finite. -/

namespace Lox

open Text

section Scan

namespace Number

/-- A numeral stands for a number. -/
theorem isNaN_toFloat (d : Decimal) (negative : Bool) : isNaN (d.toFloat negative) = false := by
  rw [Decimal.toFloat_eq_nearest]
  obtain ⟨bits, hbits⟩ :=
    nearest_magnitude (d.coefficient * 10 ^ d.exponent.toNat) (10 ^ (-d.exponent).toNat)
  rw [hbits]
  exact isNaN_ofMagnitudeBits negative bits

private theorem expressible_of_ne_infinity {d : Decimal} (h : d.toFloat false ≠ infinity false) :
    Expressible (d.toFloat false) := by
  rw [Decimal.toFloat_eq_nearest] at h ⊢
  obtain ⟨bits, hbits⟩ :=
    nearest_magnitude (d.coefficient * 10 ^ d.exponent.toNat) (10 ^ (-d.exponent).toNat)
  rw [hbits] at h ⊢
  have hfinite : bits < infinityBits := by
    by_contra hle
    exact h (ofMagnitudeBits_of_infinityBits_le false (Nat.le_of_not_lt hle))
  refine ⟨false, ?_⟩
  rw [form_ofMagnitudeBits false hfinite]
  split <;> exact ⟨_, _, rfl, fun _ => rfl⟩

end Number

/-- Lines and columns are counted. -/
theorem Location.expressible_ofPosition (p : Position) : (Location.ofPosition p).Expressible := by
  have hcounted (n : Nat) : Number.Countable (Location.counted n) := by
    obtain ⟨m, e, hform, hwhole⟩ := Number.whole?_ofNat (Nat.min_le_right n Number.exactLimit)
    exact ⟨m, e, hform, by rw [hwhole]; rfl⟩
  exact ⟨hcounted p.line, hcounted p.column⟩

/-- Identifiers are words. -/
theorem Fragment.Lexeme.isIdentifier {kind : TokenKind} {text after : Text}
    (h : Lexeme kind text after) (hkind : kind = .identifier) : isIdentifier text = true := by
  have hsigns : ∀ sign ∈ TokenKind.signs, sign.2 ≠ .identifier := by decide
  have hextendable : ∀ signs ∈ TokenKind.extendableSigns,
      signs.2.1 ≠ .identifier ∧ signs.2.2 ≠ .identifier := by decide
  cases h with
  | sign hsign => exact absurd hkind (hsigns _ hsign)
  | alone hsign _ => exact absurd hkind (hextendable _ hsign).1
  | extended hsign => exact absurd hkind (hextendable _ hsign).2
  | word hu htail _ => simpa [Text.isIdentifier, hu] using htail
  | _ => cases hkind

private theorem isIdentifier_of_mem_scan {source : Text} {t : Token} (ht : t ∈ (scan source).tokens)
    (hkind : t.kind = .identifier) : isIdentifier t.lexeme = true := by
  have hlayout : Layout [] source _ _ := Layout.iff_scan.mpr ⟨rfl, rfl⟩
  obtain ⟨-, after, hlexeme⟩ := hlayout.exists_lexeme t ht
  exact hlexeme.isIdentifier hkind

theorem literal_of_mem_scan {source : Text} {t : Token} (ht : t ∈ (scan source).tokens) :
    t.literal = t.kind.literal t.lexeme :=
  have hlayout : Layout [] source _ _ := Layout.iff_scan.mpr ⟨rfl, rfl⟩
  (hlayout.exists_lexeme t ht).1

end Scan

/-- The names of the nodes of a source text are identifiers, and its numerals are numbers. -/
theorem Mark.Written.valid {source : Text} {p : Position} {m : Mark}
    (h : m.Written (scan source).tokens p) : m.Valid := by
  cases m with
  | literal v =>
    rcases h with rfl | ⟨t, ht, hoperand⟩
    · exact trivial
    · have hliteral := literal_of_mem_scan ht
      unfold Token.operand? at hoperand
      split at hoperand <;> cases hoperand
      case h_4 hkind =>
        rw [hliteral, hkind]
        exact Number.isNaN_toFloat _ false
      case h_5 hkind =>
        rw [hliteral, hkind]
        exact trivial
      all_goals exact trivial
  | access x =>
    obtain ⟨t, ht, hkind, rfl, -⟩ := h
    exact isIdentifier_of_mem_scan ht hkind
  | binding xs =>
    intro x hx
    obtain ⟨t, ht, hkind, rfl⟩ := h x hx
    exact isIdentifier_of_mem_scan ht hkind
  | _ => exact trivial

private theorem Mark.Written.expressible {source : Text}
    (hfinite : ∀ t ∈ (scan source).tokens, t.kind = .number →
      t.numberValue ≠ Number.infinity false) {p : Position} {m : Mark}
    (h : m.Written (scan source).tokens p) : m.Expressible := by
  cases m with
  | literal v =>
    rcases h with rfl | ⟨t, ht, hoperand⟩
    · exact trivial
    · have hliteral := literal_of_mem_scan ht
      unfold Token.operand? at hoperand
      split at hoperand <;> cases hoperand
      case h_4 hkind =>
        rw [hliteral, hkind]
        exact Number.expressible_of_ne_infinity (hfinite t ht hkind)
      case h_5 hkind =>
        rw [hliteral, hkind]
        exact trivial
      all_goals exact trivial
  | _ => exact trivial

/-- The checks of a tree let that of a source text through, with syntax errors or without. -/
theorem each_validAt_parse (source : Text) :
    Program.Each Mark.ValidAt (Program.map .ofPosition (parse source).program) := by
  have hvalid (p : Position) (m : Mark) (h : m.Written (scan source).tokens p) :
      m.ValidAt (.ofPosition p) :=
    ⟨(Location.expressible_ofPosition p).valid, h.valid⟩
  exact Program.Each.map hvalid _ (Parse.each_parse source)

/-- A text can hold the tree of a source text, if no number in it is too large for a double. -/
theorem each_expressibleAt_of_parse? {source : Text} {q : Program Position}
    (h : parse? source = .ok q) (hfinite : ∀ t ∈ (scan source).tokens, t.kind = .number →
      t.numberValue ≠ Number.infinity false) :
    Program.Each Mark.ExpressibleAt (Program.map .ofPosition q) := by
  obtain ⟨-, rfl⟩ := parse?_eq_ok.mp h
  have hexpressible (p : Position) (m : Mark) (hm : m.Written (scan source).tokens p) :
      m.ExpressibleAt (.ofPosition p) :=
    ⟨Location.expressible_ofPosition p, hm.expressible hfinite⟩
  exact Program.Each.map hexpressible _ (Parse.each_parse source)

end Lox
