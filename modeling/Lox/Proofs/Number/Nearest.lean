import Mathlib.Data.Int.Log
import Mathlib.Data.Rat.Floor
import Mathlib.Tactic.FieldSimp
import Mathlib.Tactic.Linarith
import Mathlib.Tactic.NormNum
import Mathlib.Tactic.Positivity
import Lox.Number.Binary

/-! The nearest double depends on the quotient alone: not on the numbers whose quotient it is, and
on the sign only in its own sign. A double is the nearest to what it stands for. -/

namespace Lox.Number

section Words

theorem eq_of_toNat_toBits {x y : Float} (h : x.toBits.toNat = y.toBits.toNat) : x = y := by
  obtain ⟨⟨bits, hvalid⟩⟩ := x
  obtain ⟨⟨bits', hvalid'⟩⟩ := y
  obtain rfl : bits = bits' := UInt64.toNat_inj.mp h
  rfl

theorem ofMagnitudeBits_inj {negative : Bool} {a b : Nat} :
    ofMagnitudeBits negative a = ofMagnitudeBits negative b ↔
      min a infinityBits = min b infinityBits := by
  constructor
  · intro h
    have h := congrArg (fun x => x.toBits.toNat) h
    simp only [toBits_ofMagnitudeBits, word] at h
    omega
  · intro h
    apply eq_of_toNat_toBits
    rw [toBits_ofMagnitudeBits, toBits_ofMagnitudeBits, word, word, h]

theorem ofMagnitudeBits_of_infinityBits_le (negative : Bool) {bits : Nat}
    (h : infinityBits ≤ bits) : ofMagnitudeBits negative bits = infinity negative := by
  rw [infinity, ofMagnitudeBits_inj]
  omega

end Words

section Rounding

theorem roundHalfEven_mul (num den : Nat) {k : Nat} (hk : k ≠ 0) :
    roundHalfEven (num * k) (den * k) = roundHalfEven num den := by
  have hpos : 0 < k := Nat.pos_of_ne_zero hk
  have hcompare : compare (2 * (num * k % (den * k))) (den * k) =
      compare (2 * (num % den)) den := by
    rw [Nat.mul_mod_mul_right, ← Nat.mul_assoc]
    rcases Nat.lt_trichotomy (2 * (num % den)) den with h | h | h
    · rw [Nat.compare_eq_lt.mpr h, Nat.compare_eq_lt]
      exact Nat.mul_lt_mul_of_pos_right h hpos
    · rw [h, Nat.compare_eq_eq.mpr rfl, Nat.compare_eq_eq.mpr rfl]
    · rw [Nat.compare_eq_gt.mpr h, Nat.compare_eq_gt]
      exact Nat.mul_lt_mul_of_pos_right h hpos
  rw [roundHalfEven, roundHalfEven, hcompare, Nat.mul_div_mul_right _ _ hpos]

private theorem le_roundHalfEven {n num den : Nat} (hden : den ≠ 0) (h : n * den ≤ num) :
    n ≤ roundHalfEven num den := by
  have hquotient : n ≤ num / den := (Nat.le_div_iff_mul_le (Nat.pos_of_ne_zero hden)).mpr h
  rw [roundHalfEven]
  split <;> omega

private theorem roundHalfEven_of_lt_half {num den : Nat} (h : 2 * num < den) :
    roundHalfEven num den = 0 := by
  have hlt : num < den := by omega
  rw [roundHalfEven, Nat.mod_eq_of_lt hlt, Nat.div_eq_of_lt hlt, Nat.compare_eq_lt.mpr h]

end Rounding

section TopExponent

theorem le_log {r : ℚ} (hr : 0 < r) {t : ℤ} : t ≤ Int.log 2 r ↔ (2 : ℚ) ^ t ≤ r := by
  rw [← Int.zpow_le_iff_le_log Nat.one_lt_two hr, Nat.cast_ofNat]

theorem log_lt {r : ℚ} (hr : 0 < r) {t : ℤ} : Int.log 2 r < t ↔ r < (2 : ℚ) ^ t := by
  rw [← Int.lt_zpow_iff_log_lt Nat.one_lt_two hr, Nat.cast_ofNat]

variable {num den : Nat}

/-- A power of two is compared to a quotient as the numbers allow. -/
theorem zpow_le_div (hden : den ≠ 0) (t : Int) :
    (2 : ℚ) ^ t ≤ num / den ↔ den * 2 ^ t.toNat ≤ num * 2 ^ (-t).toNat := by
  have hpos : (0 : ℚ) < den := Nat.cast_pos.mpr (Nat.pos_of_ne_zero hden)
  rcases Int.le_total 0 t with ht | ht
  · obtain ⟨n, rfl⟩ := Int.eq_ofNat_of_zero_le ht
    rw [le_div_iff₀ hpos, zpow_natCast, mul_comm]
    simp
    exact_mod_cast Iff.rfl
  · obtain ⟨n, hn⟩ := Int.eq_ofNat_of_zero_le (Int.neg_nonneg_of_nonpos ht)
    obtain rfl : t = -n := by omega
    rw [le_div_iff₀ hpos, zpow_neg, zpow_natCast, inv_mul_le_iff₀ (by positivity), mul_comm]
    simp
    exact_mod_cast Iff.rfl

theorem div_pos_of_ne_zero (hnum : num ≠ 0) (hden : den ≠ 0) : (0 : ℚ) < num / den :=
  div_pos (Nat.cast_pos.mpr (Nat.pos_of_ne_zero hnum)) (Nat.cast_pos.mpr (Nat.pos_of_ne_zero hden))

/-- The logarithms of two numbers bound the one of their quotient. -/
theorem log_div_bounds (hnum : num ≠ 0) (hden : den ≠ 0) :
    (num.log2 : Int) - den.log2 - 1 ≤ Int.log 2 (num / den : ℚ) ∧
      Int.log 2 (num / den : ℚ) < (num.log2 : Int) - den.log2 + 1 := by
  have hpos := div_pos_of_ne_zero hnum hden
  have hden' : (0 : ℚ) < den := Nat.cast_pos.mpr (Nat.pos_of_ne_zero hden)
  have hnumLow : (2 : ℚ) ^ num.log2 ≤ num := by exact_mod_cast Nat.log2_self_le hnum
  have hnumHigh : (num : ℚ) < 2 ^ (num.log2 + 1) := by exact_mod_cast Nat.lt_log2_self
  have hdenLow : (2 : ℚ) ^ den.log2 ≤ den := by exact_mod_cast Nat.log2_self_le hden
  have hdenHigh : (den : ℚ) < 2 ^ (den.log2 + 1) := by exact_mod_cast Nat.lt_log2_self
  constructor
  · have hexp : (num.log2 : Int) - den.log2 - 1 = (num.log2 : Int) - (den.log2 + 1 : Nat) := by
      omega
    rw [le_log hpos, hexp, zpow_sub₀ two_ne_zero, zpow_natCast, zpow_natCast]
    exact div_le_div₀ (by positivity) hnumLow hden' hdenHigh.le
  · have hexp : (num.log2 : Int) - den.log2 + 1 = (num.log2 + 1 : Nat) - (den.log2 : Int) := by
      omega
    rw [log_lt hpos, hexp, zpow_sub₀ two_ne_zero, zpow_natCast, zpow_natCast]
    exact div_lt_div₀ hnumHigh hdenLow (by positivity) (by positivity)

/-- The top exponent is the logarithm of the quotient. -/
theorem topExponent_eq_log (hnum : num ≠ 0) (hden : den ≠ 0) :
    topExponent num den = Int.log 2 (num / den : ℚ) := by
  have hpos := div_pos_of_ne_zero hnum hden
  obtain ⟨hlow, hhigh⟩ := log_div_bounds hnum hden
  have hreaches : (if 0 ≤ (num.log2 : Int) - den.log2
        then den * Nat.pow 2 ((num.log2 : Int) - den.log2).toNat ≤ num
        else den ≤ num * Nat.pow 2 (-((num.log2 : Int) - den.log2)).toNat) ↔
      (num.log2 : Int) - den.log2 ≤ Int.log 2 (num / den : ℚ) := by
    rw [le_log hpos, zpow_le_div hden]
    split
    · have : (-((num.log2 : Int) - den.log2)).toNat = 0 := by omega
      rw [this, Nat.pow_zero, Nat.mul_one]
      exact Iff.rfl
    · have : ((num.log2 : Int) - den.log2).toNat = 0 := by omega
      rw [this, Nat.pow_zero, Nat.mul_one]
      exact Iff.rfl
  simp only [topExponent, hreaches]
  split <;> omega

end TopExponent

section Nearest

variable (negative : Bool) {num den : Nat}

/-- The exponent of the last place of the double nearest to a quotient. -/
theorem nearest_eq (hnum : num ≠ 0) :
    nearest negative num den =
      let e := max (topExponent num den - 52) leastExponent
      ofMagnitudeBits negative ((e - leastExponent).toNat * 2 ^ 52 +
        roundHalfEven (num * 2 ^ (-e).toNat) (den * 2 ^ e.toNat)) := by
  rw [nearest, if_neg hnum]
  dsimp only [Nat.pow_eq]
  generalize max (topExponent num den - 52) leastExponent = e
  by_cases he : 0 ≤ e
  · have hzero : (-e).toNat = 0 := by omega
    rw [if_pos he, hzero, Nat.pow_zero, Nat.mul_one]
  · have hzero : e.toNat = 0 := by omega
    rw [if_neg he, hzero, Nat.pow_zero, Nat.mul_one]

theorem nearest_zero (den : Nat) : nearest negative 0 den = ofMagnitudeBits negative 0 := rfl

theorem nearest_mul (hden : den ≠ 0) {k : Nat} (hk : k ≠ 0) :
    nearest negative (num * k) (den * k) = nearest negative num den := by
  by_cases hnum : num = 0
  · rw [hnum, Nat.zero_mul, nearest_zero, nearest_zero]
  · have htop : topExponent (num * k) (den * k) = topExponent num den := by
      rw [topExponent_eq_log (Nat.mul_ne_zero hnum hk) (Nat.mul_ne_zero hden hk),
        topExponent_eq_log hnum hden, Nat.cast_mul, Nat.cast_mul,
        mul_div_mul_right _ _ (Nat.cast_ne_zero.mpr hk)]
    rw [nearest_eq negative (Nat.mul_ne_zero hnum hk), nearest_eq negative hnum, htop]
    dsimp only
    rw [Nat.mul_right_comm num, Nat.mul_right_comm den, roundHalfEven_mul _ _ hk]

/-- Equal quotients have one nearest double. -/
theorem nearest_congr {num' den' : Nat} (hden : den ≠ 0) (hden' : den' ≠ 0)
    (h : num * den' = num' * den) : nearest negative num den = nearest negative num' den' :=
  calc nearest negative num den
      = nearest negative (num * den') (den * den') := (nearest_mul negative hden hden').symm
    _ = nearest negative (num' * den) (den' * den) := by rw [h, Nat.mul_comm den]
    _ = nearest negative num' den' := nearest_mul negative hden' hden

/-- The sign of the nearest double is free: the magnitude is that of the quotient. -/
theorem nearest_magnitude (num den : Nat) :
    ∃ bits, ∀ negative, nearest negative num den = ofMagnitudeBits negative bits := by
  by_cases hnum : num = 0
  · exact ⟨0, fun negative => by rw [hnum, nearest_zero]⟩
  · exact ⟨_, fun negative => nearest_eq negative hnum⟩

theorem scaled_eq_nearest (m : Nat) (e : Int) :
    scaled negative m e = nearest negative (m * 2 ^ e.toNat) (2 ^ (-e).toNat) := by
  rw [scaled]
  split
  · rw [show (-e).toNat = 0 by omega, Nat.pow_eq, Nat.pow_zero]
  · rw [show e.toNat = 0 by omega, Nat.pow_eq, Nat.pow_zero, Nat.mul_one]

/-- A quotient beyond all doubles is rounded to an infinity. -/
theorem nearest_of_le {n : Nat} (hn : 1024 ≤ n) (hden : den ≠ 0) (h : den * 2 ^ n ≤ num) :
    nearest negative num den = infinity negative := by
  have hnum : num ≠ 0 := by
    have : 0 < den * 2 ^ n := Nat.mul_pos (Nat.pos_of_ne_zero hden) (Nat.two_pow_pos n)
    omega
  have hpos := div_pos_of_ne_zero hnum hden
  have htop := topExponent_eq_log hnum hden
  have hbig : (n : Int) ≤ topExponent num den := by
    rw [htop, le_log hpos, zpow_le_div hden, Int.toNat_natCast, Int.toNat_neg_natCast, Nat.pow_zero,
      Nat.mul_one]
    exact h
  have hlow : den * 2 ^ (topExponent num den).toNat ≤ num := by
    have hle := (zpow_le_div hden _).mp ((le_log hpos).mp htop.le)
    rwa [show (-topExponent num den).toNat = 0 by omega, Nat.pow_zero, Nat.mul_one] at hle
  have hmax : max (topExponent num den - 52) leastExponent = topExponent num den - 52 := by
    rw [leastExponent]
    omega
  rw [nearest_eq negative hnum, hmax]
  apply ofMagnitudeBits_of_infinityBits_le
  have hround : 2 ^ 52 ≤ roundHalfEven (num * 2 ^ (-(topExponent num den - 52)).toNat)
      (den * 2 ^ (topExponent num den - 52).toNat) := by
    apply le_roundHalfEven (Nat.mul_ne_zero hden (Nat.pow_pos Nat.two_pos).ne')
    have hexp : 52 + (topExponent num den - 52).toNat = (topExponent num den).toNat := by omega
    have hzero : (-(topExponent num den - 52)).toNat = 0 := by omega
    rw [hzero, Nat.pow_zero, Nat.mul_one, Nat.mul_left_comm, ← Nat.pow_add, hexp]
    exact hlow
  have hexp : 2046 ≤ (topExponent num den - 52 - leastExponent).toNat := by
    rw [leastExponent]
    omega
  simp only [infinityBits, Nat.pow_eq]
  omega

/-- A quotient below half of the least double is rounded to zero. -/
theorem nearest_of_lt {n : Nat} (hn : 1075 ≤ n) (h : num * 2 ^ n < den) :
    nearest negative num den = ofMagnitudeBits negative 0 := by
  by_cases hnum : num = 0
  · rw [hnum, nearest_zero]
  have hden : den ≠ 0 := Nat.ne_zero_of_lt h
  have hpos := div_pos_of_ne_zero hnum hden
  have hsmall : topExponent num den < -(n : Int) := by
    rw [topExponent_eq_log hnum hden, ← not_le, le_log hpos, zpow_le_div hden, not_le, neg_neg,
      Int.toNat_natCast, Int.toNat_neg_natCast, Nat.pow_zero, Nat.mul_one]
    exact h
  have hmax : max (topExponent num den - 52) leastExponent = leastExponent := by
    rw [leastExponent]
    omega
  have hround : roundHalfEven (num * 2 ^ (-leastExponent).toNat)
      (den * 2 ^ leastExponent.toNat) = 0 := by
    apply roundHalfEven_of_lt_half
    have hexp : (-leastExponent).toNat + 1 ≤ n := by
      rw [leastExponent]
      omega
    calc 2 * (num * 2 ^ (-leastExponent).toNat)
        = num * 2 ^ ((-leastExponent).toNat + 1) := by rw [Nat.pow_succ]; ring
      _ ≤ num * 2 ^ n := Nat.mul_le_mul_left _ (Nat.pow_le_pow_right Nat.two_pos hexp)
      _ < den * 2 ^ leastExponent.toNat := by
        rw [show leastExponent.toNat = 0 from rfl, Nat.pow_zero, Nat.mul_one]
        exact h
  rw [nearest_eq negative hnum, hmax]
  dsimp only
  rw [hround, Int.sub_self]
  rfl

end Nearest

section Form

variable {negative : Bool} {m : Nat} {e : Int}

/-- What a finite double is made of, and the double that is made of it. -/
theorem form_bounds {x : Float} (h : form x = .finite negative m e) :
    m < 2 ^ 53 ∧ leastExponent ≤ e ∧ (e = leastExponent ∨ 2 ^ 52 ≤ m) ∧
      x = ofMagnitudeBits negative ((e - leastExponent).toNat * 2 ^ 52 + m) := by
  have hword : x.toBits.toNat < 2 ^ 64 := x.toBits.toNat_lt
  simp only [form, Nat.pow_eq] at h
  split at h
  · split at h <;> cases h
  rename_i hfinite
  have hsign : word negative ((e - leastExponent).toNat * 2 ^ 52 + m) = x.toBits.toNat ∧
      m < 2 ^ 53 ∧ leastExponent ≤ e ∧ (e = leastExponent ∨ 2 ^ 52 ≤ m) := by
    simp only [word, infinityBits, leastExponent, Nat.pow_eq] at *
    have hbit : x.toBits.toNat / 2 ^ 63 = 1 ∨ x.toBits.toNat < 2 ^ 63 := by omega
    -- a fraction under the exponent zero, or under another one
    split at h <;> cases h <;> rcases hbit with hbit | hbit
    · simp only [hbit, decide_true, if_true, true_or, and_true]
      omega
    · simp only [Nat.div_eq_of_lt hbit, Nat.zero_ne_one, decide_false, Bool.false_eq_true,
        if_false, true_or, and_true]
      omega
    · simp only [hbit, decide_true, if_true]
      omega
    · simp only [Nat.div_eq_of_lt hbit, Nat.zero_ne_one, decide_false, Bool.false_eq_true,
        if_false]
      omega
  refine ⟨hsign.2.1, hsign.2.2.1, hsign.2.2.2, ?_⟩
  apply eq_of_toNat_toBits
  rw [toBits_ofMagnitudeBits, hsign.1]

/-- A double is the nearest to what its form stands for. -/
theorem scaled_of_form {x : Float} (h : form x = .finite negative m e) (negative' : Bool) :
    scaled negative' m e =
      ofMagnitudeBits negative' ((e - leastExponent).toNat * 2 ^ 52 + m) := by
  obtain ⟨hhigh, hleast, hnormal, -⟩ := form_bounds h
  rw [scaled_eq_nearest]
  by_cases hm : m = 0
  · have he : e = leastExponent := hnormal.resolve_right (by omega)
    rw [hm, he, Nat.zero_mul, nearest_zero, Int.sub_self]
    rfl
  have hnum : m * 2 ^ e.toNat ≠ 0 := Nat.mul_ne_zero hm (Nat.two_pow_pos _).ne'
  have hden : 2 ^ (-e).toNat ≠ 0 := (Nat.two_pow_pos _).ne'
  have hpos := div_pos_of_ne_zero hnum hden
  have hvalue : ((m * 2 ^ e.toNat : Nat) / (2 ^ (-e).toNat : Nat) : ℚ) = m * 2 ^ e := by
    rcases Int.le_total 0 e with he | he
    · obtain ⟨n, rfl⟩ := Int.eq_ofNat_of_zero_le he
      simp
    · obtain ⟨n, hn⟩ := Int.eq_ofNat_of_zero_le (Int.neg_nonneg_of_nonpos he)
      obtain rfl : e = -n := by omega
      simp [div_eq_mul_inv]
  have hpow : (0 : ℚ) < 2 ^ e := zpow_pos two_pos e
  have htop : topExponent (m * 2 ^ e.toNat) (2 ^ (-e).toNat) < e + 53 := by
    rw [topExponent_eq_log hnum hden, log_lt hpos, hvalue, zpow_add₀ two_ne_zero, mul_comm]
    exact mul_lt_mul_of_pos_left (by exact_mod_cast hhigh) hpow
  have hexp : max (topExponent (m * 2 ^ e.toNat) (2 ^ (-e).toNat) - 52) leastExponent = e := by
    rcases hnormal with hnormal | hnormal
    · omega
    · have : e + 52 ≤ topExponent (m * 2 ^ e.toNat) (2 ^ (-e).toNat) := by
        rw [topExponent_eq_log hnum hden, le_log hpos, hvalue, zpow_add₀ two_ne_zero, mul_comm]
        exact mul_le_mul_of_nonneg_right (by exact_mod_cast hnormal) hpow.le
      omega
  have hexact : roundHalfEven (m * 2 ^ e.toNat * 2 ^ (-e).toNat)
      (2 ^ (-e).toNat * 2 ^ e.toNat) = m := by
    rw [Nat.mul_assoc, Nat.mul_comm (2 ^ e.toNat), ← Nat.pow_add,
      ← Nat.one_mul (2 ^ ((-e).toNat + e.toNat)), ← Nat.mul_assoc, Nat.mul_one,
      roundHalfEven_mul _ _ (Nat.two_pow_pos _).ne', roundHalfEven_one]
  rw [nearest_eq negative' hnum, hexp]
  dsimp only
  rw [hexact]

end Form

end Lox.Number
