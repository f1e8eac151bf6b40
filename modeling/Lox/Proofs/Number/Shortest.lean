import Lox.Number.Decimal
import Lox.Proofs.Number.Nearest

/-! Every decimal is read as the double nearest to it, and the shortest decimal of a double is read
as that double. -/

namespace Lox.Number

namespace Decimal

variable (negative : Bool)

private theorem two_pow_le_ten_pow {m n : Nat} (h : m ≤ 3 * n) : 2 ^ m ≤ 10 ^ n :=
  calc 2 ^ m ≤ 2 ^ (3 * n) := Nat.pow_le_pow_right Nat.two_pos h
    _ = 8 ^ n := Nat.pow_mul 2 3 n
    _ ≤ 10 ^ n := Nat.pow_le_pow_left (by decide) n

/-- The limit on exponents changes no result: what is beyond it is rounded to an infinity or to
zero. -/
theorem toFloat_eq_nearest (d : Decimal) :
    d.toFloat negative =
      nearest negative (d.coefficient * 10 ^ d.exponent.toNat) (10 ^ (-d.exponent).toNat) := by
  obtain ⟨c, e⟩ := d
  simp only [toFloat, exponentLimit, Nat.pow_eq]
  split
  · rename_i hc
    rw [hc, Nat.zero_mul, nearest_zero]
  rename_i hc
  split
  · rename_i he
    have hpow : 1 * 2 ^ 1024 ≤ c * 10 ^ e.toNat :=
      Nat.mul_le_mul (Nat.pos_of_ne_zero hc) (two_pow_le_ten_pow (by omega))
    rw [show (-e).toNat = 0 by omega, Nat.pow_zero]
    exact (nearest_of_le negative (le_refl _) Nat.one_ne_zero hpow).symm
  split
  · rename_i he
    obtain ⟨n, hn⟩ : ∃ n, n = 1075 := ⟨_, rfl⟩
    have hpow : c * 2 ^ n < 10 ^ (-e).toNat :=
      calc c * 2 ^ n < 2 ^ (c.log2 + 1) * 2 ^ n :=
            Nat.mul_lt_mul_of_pos_right Nat.lt_log2_self (Nat.two_pow_pos n)
        _ = 2 ^ (c.log2 + 1 + n) := (Nat.pow_add 2 _ n).symm
        _ ≤ 10 ^ (-e).toNat := two_pow_le_ten_pow (by omega)
    rw [show e.toNat = 0 by omega, Nat.pow_zero, Nat.mul_one]
    exact (nearest_of_lt negative hn.ge hpow).symm
  split
  · rename_i he
    rw [show (-e).toNat = 0 by omega, Nat.pow_zero]
  · rename_i he
    rw [show e.toNat = 0 by omega, Nat.pow_zero, Nat.mul_one]

/-- Decimals of one value are read as one double. -/
theorem toFloat_shift (c k : Nat) (e : Int) :
    toFloat negative ⟨c * 10 ^ k, e⟩ = toFloat negative ⟨c, e + k⟩ := by
  rw [toFloat_eq_nearest, toFloat_eq_nearest]
  have hexp : k + e.toNat + (-(e + k)).toNat = (e + k).toNat + (-e).toNat := by omega
  apply nearest_congr negative (Nat.pow_pos (by decide)).ne' (Nat.pow_pos (by decide)).ne'
  rw [Nat.mul_assoc c, Nat.mul_assoc c, ← Nat.pow_add, ← Nat.pow_add, hexp, Nat.mul_assoc c,
    ← Nat.pow_add]

/-- The sign of a decimal changes the sign of its double and nothing else. -/
theorem toFloat_eq_scaled {d : Decimal} {m : Nat} {e : Int}
    (h : d.toFloat false = scaled false m e) : d.toFloat negative = scaled negative m e := by
  rw [toFloat_eq_nearest, scaled_eq_nearest] at h ⊢
  obtain ⟨bits, hbits⟩ :=
    nearest_magnitude (d.coefficient * 10 ^ d.exponent.toNat) (10 ^ (-d.exponent).toNat)
  obtain ⟨bits', hbits'⟩ := nearest_magnitude (m * 2 ^ e.toNat) (2 ^ (-e).toNat)
  rw [hbits, hbits', ofMagnitudeBits_inj] at h
  rw [hbits, hbits', ofMagnitudeBits_inj, h]

/-- All digits of a double are read as that double. -/
theorem toFloat_exact (m : Nat) (e : Int) :
    (exact m e).toFloat negative = scaled negative m e := by
  rw [toFloat_eq_nearest, scaled_eq_nearest, exact]
  split
  · rw [show (-e).toNat = 0 by omega]
    simp
  · rw [show e.toNat = 0 by omega]
    have hpow : 10 ^ (-e).toNat = 2 ^ (-e).toNat * 5 ^ (-e).toNat := by rw [← Nat.mul_pow]
    simp only [Nat.pow_eq, Nat.pow_zero, Nat.mul_one, hpow]
    exact nearest_mul negative (Nat.two_pow_pos _).ne' (Nat.pow_pos (by decide)).ne'

private theorem accept_of_neighbour? {accept : Decimal → Bool} {num den : Nat} {exponent : Int}
    {d : Decimal} (h : neighbour? accept num den exponent = some d) : accept d = true := by
  grind [neighbour?]

/-- The shortest decimal of a double is read as that double. -/
theorem toFloat_shortest (m : Nat) (e : Int) :
    (shortest m e).toFloat negative = scaled negative m e := by
  apply toFloat_eq_scaled
  simp only [shortest]
  generalize hfound : List.findSome? _ (List.range mostDigits) = found
  cases found with
  | none => exact toFloat_exact false m e
  | some d =>
    obtain ⟨n, -, hn⟩ := List.exists_of_findSome?_eq_some hfound
    exact of_decide_eq_true (accept_of_neighbour? hn)

end Decimal

end Lox.Number
