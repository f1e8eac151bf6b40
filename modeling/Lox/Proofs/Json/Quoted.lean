import Mathlib.Data.Nat.Digits.Defs
import Lox.Json.Reader
import Lox.Json.Writer
import Lox.Proofs.Text.Digits

/-! Strings are read back from what is written between their quotes: every unit comes back, with its
escape or without one, and so do surrogates in pairs and alone. -/

namespace Lox

theorem mem_of_lookup {α β : Type} [BEq α] [LawfulBEq α] {k : α} {v : β} {table : List (α × β)}
    (h : table.lookup k = some v) : (k, v) ∈ table := by
  obtain ⟨before, after, rfl, -⟩ := List.lookup_eq_some_iff.mp h
  exact List.mem_append_right before List.mem_cons_self

namespace Json

open Text

section Hexadecimal

private theorem digit?_unit_digitChar {d : Nat} (h : d < 16) :
    Number.digit? 16 (unit d.digitChar) = some d := by
  revert d
  decide

/-- One more digit, in hexadecimal. -/
def hexStep (n : Nat) (u : CodeUnit) : Option Nat := (Number.digit? 16 u).map (16 * n + ·)

private theorem foldlM_hexStep_toDigits (n : Nat) :
    ((Nat.toDigits 16 n).map unit).foldlM hexStep 0 = some n := by
  induction n using Nat.strongRecOn with
  | ind n ih =>
    by_cases h : n < 16
    · rw [Nat.toDigits_of_lt_base h]
      simp [hexStep, digit?_unit_digitChar h]
    · rw [Nat.toDigits_of_base_le (by decide) (by omega), List.map_append, List.foldlM_append,
        ih (n / 16) (by omega)]
      simp [hexStep, digit?_unit_digitChar (Nat.mod_lt n (by decide : 0 < 16))]
      omega

theorem length_hexDigits (u : CodeUnit) : (hexDigits u).length = 4 := by
  have hlength : (Nat.toDigits 16 u.toNat).length ≤ 4 :=
    Nat.toDigits_length 16 u.toNat 4 (by decide) u.toNat_lt
  simp only [hexDigits, List.length_append, List.length_replicate, List.length_map]
  omega

/-- The four digits of a unit are read as that unit. -/
theorem hexUnit?_hexDigits (u : CodeUnit) : hexUnit? (hexDigits u) = some u := by
  have hzeros (n : Nat) : (List.replicate n (unit '0')).foldlM hexStep 0 = some 0 := by
    induction n with
    | zero => rfl
    | succ n ih => exact ih
  have hbased : Number.based? 16 (hexDigits u) = some u.toNat := by
    have hne : (hexDigits u).isEmpty = false := by
      rw [List.isEmpty_eq_false_iff, ← List.length_pos_iff, length_hexDigits]
      decide
    rw [Number.based?, hne]
    change (hexDigits u).foldlM hexStep 0 = some u.toNat
    rw [hexDigits, List.foldlM_append, hzeros]
    exact foldlM_hexStep_toDigits u.toNat
  rw [hexUnit?, if_pos (length_hexDigits u), hbased]
  exact congrArg some (UInt16.ofNat_toNat)

end Hexadecimal

section Units

variable (read rest : Text) {u : CodeUnit}

private theorem stringTail_quote : stringTail read (unit '"' :: rest) = .ok
    (read.reverse, rest) := by
  rw [stringTail.eq_def]
  exact if_pos rfl

theorem stringTail_plain (hquote : u ≠ unit '"') (hcontrol : ¬ u < 0x20)
    (hslash : u ≠ unit '\\') : stringTail read (u :: rest) = stringTail (u :: read) rest := by
  rw [stringTail.eq_def]
  dsimp only
  rw [if_neg hquote, if_neg hcontrol, if_neg hslash]

/-- An escape of one letter, whatever follows it. -/
theorem stringTail_escape {a v : CodeUnit} (ha : a ≠ unit 'u') (hv : escapes.lookup a = some v) :
    stringTail read (unit '\\' :: a :: rest) = stringTail (v :: read) rest := by
  rw [stringTail.eq_def]
  dsimp only
  rw [if_neg (by decide), if_neg (by decide), if_pos rfl]
  -- the reader looks four units further, where a hexadecimal escape would end
  match rest with
  | [] | [_] | [_, _] | [_, _, _] | _ :: _ :: _ :: _ :: _ => simp only [if_neg ha, hv]

private theorem stringTail_unicodeEscape (u : CodeUnit) :
    stringTail read (unicodeEscape u ++ rest) = stringTail (u :: read) rest := by
  obtain ⟨a, b, c, d, hdigits⟩ : ∃ a b c d, hexDigits u = [a, b, c, d] := by
    match hexDigits u, length_hexDigits u with
    | [a, b, c, d], _ => exact ⟨a, b, c, d, rfl⟩
  have hunit := hexUnit?_hexDigits u
  rw [hdigits] at hunit
  have htext : unicodeEscape u ++ rest =
      unit '\\' :: unit 'u' :: a :: b :: c :: d :: rest := by
    rw [unicodeEscape, hdigits]
    rfl
  rw [htext, stringTail.eq_def]
  dsimp only
  rw [if_neg (by decide), if_neg (by decide), if_pos rfl, if_pos rfl, hunit]

private theorem shortEscapes_read : ∀ p ∈ shortEscapes, ∃ a ∈ escapes.map Prod.fst,
    p.2 = [unit '\\', a] ∧ a ≠ unit 'u' ∧ escapes.lookup a = some p.1 := by
  decide

private theorem stringTail_writeUnit (u : CodeUnit) :
    stringTail read (writeUnit u ++ rest) = stringTail (u :: read) rest := by
  rw [writeUnit]
  split
  · rename_i escape hescape
    obtain ⟨a, -, hp, ha, hv⟩ := shortEscapes_read (u, escape) (mem_of_lookup hescape)
    dsimp only at hp hv
    rw [hp]
    exact stringTail_escape read rest ha hv
  · rename_i hplain
    split
    · exact stringTail_unicodeEscape read rest u
    · rename_i hvisible
      simp only [Bool.or_eq_true, decide_eq_true_eq, not_or] at hvisible
      refine stringTail_plain read rest ?_ hvisible.1.1 ?_
      · rintro rfl
        cases hplain
      · rintro rfl
        cases hplain

/-- Both halves of a pair stand for themselves. -/
theorem plain_of_surrogate (h : isHighSurrogate u = true ∨ isLowSurrogate u = true) :
    u ≠ unit '"' ∧ ¬ u < 0x20 ∧ u ≠ unit '\\' := by
  have hlarge : 0xD800 ≤ u := by
    simp only [isHighSurrogate, isLowSurrogate, Bool.and_eq_true, decide_eq_true_eq] at h
    rcases h with h | h
    · exact h.1
    · exact UInt16.le_trans (by decide) h.1
  refine ⟨?_, ?_, ?_⟩
  · rintro rfl
    exact absurd hlarge (by decide)
  · intro hsmall
    exact absurd (UInt16.lt_of_le_of_lt hlarge hsmall) (by decide)
  · rintro rfl
    exact absurd hlarge (by decide)

/-- What is written between quotes is read back. -/
theorem stringTail_writeUnits (t : Text) :
    stringTail read (writeUnits t ++ unit '"' :: rest) = .ok (read.reverse ++ t, rest) := by
  fun_induction writeUnits t generalizing read with
  | case1 => rw [List.nil_append, stringTail_quote, List.append_nil]
  | case2 u => rw [stringTail_writeUnit, stringTail_quote, List.reverse_cons]
  | case3 u v t hpair ih =>
    rw [Bool.and_eq_true] at hpair
    have hu := plain_of_surrogate (.inl hpair.1)
    have hv := plain_of_surrogate (.inr hpair.2)
    rw [List.cons_append, List.cons_append, stringTail_plain _ _ hu.1 hu.2.1 hu.2.2,
      stringTail_plain _ _ hv.1 hv.2.1 hv.2.2, ih, List.reverse_cons, List.reverse_cons,
      List.append_assoc, List.append_assoc]
    rfl
  | case4 u v t hpair ih =>
    rw [List.append_assoc, stringTail_writeUnit, ih, List.reverse_cons, List.append_assoc]
    rfl

end Units

end Json

end Lox
