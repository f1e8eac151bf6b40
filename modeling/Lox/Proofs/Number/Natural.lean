import Lox.Number.Whole
import Lox.Proofs.Number.Nearest

/-! The doubles that stand for natural numbers, told by their integral value and their sign. -/

namespace Lox.Number

/-- What a double stands for is a natural number. Both zeros stand for zero. -/
def IsNatural (x : Float) : Prop :=
  ∃ negative m e, form x = .finite negative m e ∧
    ∃ n : ℕ, (if negative then -1 else 1 : ℚ) * (m * 2 ^ e) = n

/-- A significand with its power of two is an integer exactly if the power divides it. -/
theorem isSome_whole?_iff (m : ℕ) (e : ℤ) :
    (whole? m e).isSome ↔ ∃ n : ℕ, (m : ℚ) * 2 ^ e = n := by
  unfold whole? asQuotient
  simp only [Nat.pow_eq]
  by_cases he : 0 ≤ e
  · obtain ⟨k, rfl⟩ := Int.eq_ofNat_of_zero_le he
    refine iff_of_true (by simp [Nat.mod_one]) ⟨m * 2 ^ k, ?_⟩
    push_cast
    rw [zpow_natCast]
  · obtain ⟨k, rfl⟩ : ∃ k : ℕ, e = -k := ⟨(-e).toNat, by omega⟩
    have htoNat : (- -(k : ℤ)).toNat = k := by omega
    have hpos : (2 : ℚ) ^ k ≠ 0 := by positivity
    have hsome : (if m % 2 ^ k = 0 then some (m / 2 ^ k) else none).isSome ↔ 2 ^ k ∣ m := by
      rw [Nat.dvd_iff_mod_eq_zero]
      split <;> simp [*]
    simp only [if_neg he, htoNat]
    rw [hsome, zpow_neg, zpow_natCast]
    constructor
    · rintro ⟨n, rfl⟩
      refine ⟨n, ?_⟩
      push_cast
      field_simp
    · rintro ⟨n, hn⟩
      refine ⟨n, ?_⟩
      rw [← div_eq_mul_inv, div_eq_iff hpos] at hn
      rw [Nat.mul_comm]
      exact_mod_cast hn

theorem isNaN_of_isWhole {x : Float} (h : isWhole x = true) : isNaN x = false := by
  unfold isWhole at h
  unfold isNaN
  cases hform : form x <;> simp_all

/-- The two checks of a coordinate let exactly the natural numbers through. -/
theorem isNatural_iff (x : Float) : IsNatural x ↔ isWhole x = true ∧ isBelowZero x = false := by
  unfold IsNatural isWhole isBelowZero
  cases h : form x with
  | nan => simp
  | infinite negative => simp
  | finite negative m e =>
    simp only [Form.finite.injEq]
    have hpow : (0 : ℚ) < 2 ^ e := zpow_pos (by norm_num) e
    constructor
    · rintro ⟨_, _, _, ⟨rfl, rfl, rfl⟩, n, hn⟩
      cases negative with
      | false =>
        simp only [Bool.false_eq_true, if_false, one_mul] at hn
        exact ⟨(isSome_whole?_iff m e).mpr ⟨n, hn⟩, rfl⟩
      | true =>
        -- a natural number below zero is zero
        have hm : m = 0 := by
          have hle : (m : ℚ) * 2 ^ e ≤ 0 := by
            have hn' : (0 : ℚ) ≤ n := Nat.cast_nonneg n
            simp only [if_true] at hn
            linarith
          have hzero : (m : ℚ) ≤ 0 := nonpos_of_mul_nonpos_left hle hpow
          exact_mod_cast le_antisymm hzero (Nat.cast_nonneg m)
        subst hm
        exact ⟨by rw [whole?_zero]; rfl, rfl⟩
    · rintro ⟨hwhole, hsign⟩
      obtain ⟨n, hn⟩ := (isSome_whole?_iff m e).mp hwhole
      refine ⟨negative, m, e, ⟨rfl, rfl, rfl⟩, ?_⟩
      cases negative with
      | false => exact ⟨n, by simpa using hn⟩
      | true =>
        have hm : m = 0 := by simpa using hsign
        exact ⟨0, by simp [hm]⟩

end Lox.Number
