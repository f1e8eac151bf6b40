import Lox.Number.Binary

/-! Whole numbers as doubles. Up to a limit every one of them is a double of its own. -/

namespace Lox.Number

/-- The double nearest to a natural number. -/
def ofNat (n : Nat) : Float := nearest false n 1

/-- The integer that `significand * 2 ^ exponent` is, if it is one. -/
def whole? (significand : Nat) (exponent : Int) : Option Nat :=
  let (num, den) := asQuotient significand exponent
  if num % den = 0 then some (num / den) else none

/-- Whether a double has an integral value; infinities do not. -/
def isWhole (x : Float) : Bool :=
  match form x with
  | .finite _ m e => (whole? m e).isSome
  | _ => false

/-- Doubles hold every whole number up to this one. -/
def exactLimit : Nat := Nat.pow 2 53 - 1

/-- A positive whole number that doubles hold has its leading bit first in the significand. -/
theorem form_ofNat {n : Nat} (h : n ≠ 0) (hn : n ≤ exactLimit) :
    form (ofNat n) = .finite false (n * Nat.pow 2 (52 - n.log2)) (n.log2 - 52) := by
  have hlog : n.log2 ≤ 52 := by
    have := (Nat.log2_lt h (k := 53)).2 (by simp only [exactLimit, Nat.pow_eq] at hn; omega)
    omega
  have hlow : 2 ^ 52 ≤ n * 2 ^ (52 - n.log2) := by
    calc 2 ^ 52 = 2 ^ n.log2 * 2 ^ (52 - n.log2) := by rw [← Nat.pow_add]; congr 1; omega
      _ ≤ n * 2 ^ (52 - n.log2) := Nat.mul_le_mul_right _ (Nat.log2_self_le h)
  have hhigh : n * 2 ^ (52 - n.log2) < 2 ^ 53 := by
    calc n * 2 ^ (52 - n.log2) < 2 ^ (n.log2 + 1) * 2 ^ (52 - n.log2) :=
          Nat.mul_lt_mul_of_pos_right Nat.lt_log2_self (Nat.two_pow_pos _)
      _ = 2 ^ 53 := by rw [← Nat.pow_add]; congr 1; omega
  have hexp : max (topExponent n 1 - 52) leastExponent = (n.log2 : Int) - 52 := by
    rw [topExponent_one h, leastExponent]
    omega
  have hsig : (if (0 : Int) ≤ (n.log2 : Int) - 52
      then roundHalfEven n (1 * 2 ^ ((n.log2 : Int) - 52).toNat)
      else roundHalfEven (n * 2 ^ (-((n.log2 : Int) - 52)).toNat) 1) =
        n * 2 ^ (52 - n.log2) := by
    have hneg : (-((n.log2 : Int) - 52)).toNat = 52 - n.log2 := by omega
    have hpos : ((n.log2 : Int) - 52).toNat = 0 := by omega
    split
    · have : 52 - n.log2 = 0 := by omega
      rw [hpos, this, Nat.pow_zero, Nat.mul_one, Nat.mul_one, roundHalfEven_one]
    · rw [hneg, roundHalfEven_one]
  have hraise : ((n.log2 : Int) - 52 - leastExponent).toNat = n.log2 + 1022 := by
    rw [leastExponent]
    omega
  rw [ofNat, nearest, if_neg h]
  simp only [Nat.pow_eq, hexp, hsig, hraise]
  have hbits : (n.log2 + 1022) * 2 ^ 52 + n * 2 ^ (52 - n.log2) < infinityBits := by
    simp only [infinityBits, Nat.pow_eq]
    omega
  rw [form_ofMagnitudeBits false hbits]
  simp only [Nat.pow_eq]
  have hfield : ((n.log2 + 1022) * 2 ^ 52 + n * 2 ^ (52 - n.log2)) / 2 ^ 52 = n.log2 + 1023 := by
    omega
  have hrest : ((n.log2 + 1022) * 2 ^ 52 + n * 2 ^ (52 - n.log2)) % 2 ^ 52 =
      n * 2 ^ (52 - n.log2) - 2 ^ 52 := by omega
  have hm : 2 ^ 52 + (n * 2 ^ (52 - n.log2) - 2 ^ 52) = n * 2 ^ (52 - n.log2) := by omega
  have he : ((n.log2 + 1023 : Nat) : Int) - 1075 = (n.log2 : Int) - 52 := by omega
  rw [hfield, hrest, if_neg (by omega), hm, he]

theorem form_ofNat_zero : form (ofNat 0) = .finite false 0 leastExponent := by
  rw [ofNat, nearest, if_pos rfl, form_ofMagnitudeBits false (by decide)]
  rfl

theorem whole?_zero (exponent : Int) : whole? 0 exponent = some 0 := by
  simp only [whole?, asQuotient]
  split <;> simp

/-- A whole number within the limit can be read off its double. -/
theorem whole?_ofNat {n : Nat} (hn : n ≤ exactLimit) :
    ∃ m e, form (ofNat n) = .finite false m e ∧ whole? m e = some n := by
  by_cases h : n = 0
  · subst h
    exact ⟨0, leastExponent, form_ofNat_zero, whole?_zero _⟩
  · refine ⟨_, _, form_ofNat h hn, ?_⟩
    have hlog : n.log2 ≤ 52 := by
      have := (Nat.log2_lt h (k := 53)).2 (by simp only [exactLimit, Nat.pow_eq] at hn; omega)
      omega
    have hneg : (-((n.log2 : Int) - 52)).toNat = 52 - n.log2 := by omega
    have hpos : ((n.log2 : Int) - 52).toNat = 0 := by omega
    simp only [whole?, asQuotient]
    split
    · have : 52 - n.log2 = 0 := by omega
      simp [hpos, this, Nat.mod_one]
    · rw [hneg]
      simp [Nat.mul_div_cancel _ (Nat.two_pow_pos _)]

end Lox.Number
