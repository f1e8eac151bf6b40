/-! Doubles as signed integers scaled by powers of two. Every double has such a form, and every
quotient of two integers has a nearest double. -/

namespace Lox.Number

/-- What a double is: not a number, an infinity, or `± significand * 2 ^ exponent`. -/
inductive Form where
  | nan
  | infinite (negative : Bool)
  | finite (negative : Bool) (significand : Nat) (exponent : Int)
  deriving DecidableEq, Repr

/-- Both zeros and the subnormal numbers have the least exponent. -/
def leastExponent : Int := -1074

/-- Above the sign, a double holds an exponent in 11 bits, and below that a fraction in 52. -/
def form (x : Float) : Form :=
  let bits := x.toBits.toNat
  let negative := bits / Nat.pow 2 63 = 1
  let exponent : Nat := bits / Nat.pow 2 52 % Nat.pow 2 11
  let fraction := bits % Nat.pow 2 52
  if exponent = 2047 then
    if fraction = 0 then .infinite negative else .nan
  else if exponent = 0 then .finite negative fraction leastExponent
  else .finite negative (Nat.pow 2 52 + fraction) ((exponent : Int) - 1075)

def infinityBits : Nat := 2047 * Nat.pow 2 52

/-- A sign above the bits of a magnitude; at and above those of infinity this is an infinity. -/
def word (negative : Bool) (bits : Nat) : Nat :=
  (if negative then Nat.pow 2 63 else 0) + min bits infinityBits

theorem word_lt (negative : Bool) (bits : Nat) : word negative bits < Nat.pow 2 64 := by
  have hb : min bits infinityBits ≤ infinityBits := Nat.min_le_right ..
  simp only [word, infinityBits, Nat.pow_eq] at *
  split <;> omega

open Float.Model Float.Model.UnpackedFloat in
/-- No word is one of the many that are not a number. -/
theorem word_valid (negative : Bool) (bits : Nat) :
    Format.binary64.Valid (UInt64.ofNat (word negative bits)).toBitVec := by
  refine ⟨fun he hm => absurd ?_ hm⟩
  have hb : min bits infinityBits ≤ infinityBits := Nat.min_le_right ..
  have he := congrArg BitVec.toNat he
  apply BitVec.eq_of_toNat_eq
  simp [unpackExponent, unpackMantissa, BitVec.extractLsb_toNat,
    Nat.shiftRight_eq_div_pow] at he ⊢
  simp only [word, infinityBits, Nat.pow_eq] at *
  split at he <;> simp_all <;> omega

/-- The double with a given sign and magnitude. -/
def ofMagnitudeBits (negative : Bool) (bits : Nat) : Float :=
  .ofModel ⟨UInt64.ofNat (word negative bits), word_valid negative bits⟩

theorem toBits_ofMagnitudeBits (negative : Bool) (bits : Nat) :
    (ofMagnitudeBits negative bits).toBits.toNat = word negative bits := by
  have hw := word_lt negative bits
  change (UInt64.ofNat (word negative bits)).toNat = word negative bits
  rw [UInt64.toNat_ofNat']
  exact Nat.mod_eq_of_lt hw

/-- The magnitude of a double below infinity has its exponent above its fraction. -/
theorem form_ofMagnitudeBits (negative : Bool) {bits : Nat} (h : bits < infinityBits) :
    form (ofMagnitudeBits negative bits) =
      if bits / Nat.pow 2 52 = 0 then .finite negative bits leastExponent
      else .finite negative (Nat.pow 2 52 + bits % Nat.pow 2 52)
        ((bits / Nat.pow 2 52 : Nat) - 1075) := by
  have hmin : min bits infinityBits = bits := Nat.min_eq_left (Nat.le_of_lt h)
  have hlow : bits < 2 ^ 63 := Nat.lt_trans h (by decide)
  simp only [infinityBits, Nat.pow_eq] at h
  simp only [form, toBits_ofMagnitudeBits, word, hmin, Nat.pow_eq]
  have hs : (((if negative then 2 ^ 63 else 0) + bits) / 2 ^ 63 = 1) ↔ negative = true := by
    cases negative <;> simp <;> omega
  have he : ((if negative then 2 ^ 63 else 0) + bits) / 2 ^ 52 % 2 ^ 11 = bits / 2 ^ 52 := by
    split <;> omega
  have hf : ((if negative then 2 ^ 63 else 0) + bits) % 2 ^ 52 = bits % 2 ^ 52 := by
    split <;> omega
  have hne : bits / 2 ^ 52 ≠ 2047 := by omega
  simp only [hs, he, hf, hne, if_false, Bool.decide_eq_true]
  split
  · have : bits % 2 ^ 52 = bits := by omega
    rw [this]
  · rfl

/-- The integer nearest to a quotient; halves go to the even neighbour. -/
def roundHalfEven (num den : Nat) : Nat :=
  let quotient := num / den
  match compare (2 * (num % den)) den with
  | .lt => quotient
  | .eq => quotient + quotient % 2
  | .gt => quotient + 1

/-- The exponent of the largest power of two that is at most `num / den`. -/
def topExponent (num den : Nat) : Int :=
  let guess : Int := (num.log2 : Int) - den.log2
  let reaches :=
    if 0 ≤ guess then den * Nat.pow 2 guess.toNat ≤ num else den ≤ num * Nat.pow 2 (-guess).toNat
  if reaches then guess else guess - 1

/-- The double nearest to `num / den`, with ties to the even significand. The significand is
rounded at the scale of the double's last place; laid over the exponent field, its leading bit
raises that field by one, which is right for normal and subnormal numbers alike. -/
def nearest (negative : Bool) (num den : Nat) : Float :=
  if num = 0 then ofMagnitudeBits negative 0
  else
    let exponent := max (topExponent num den - 52) leastExponent
    let significand :=
      if 0 ≤ exponent then roundHalfEven num (den * Nat.pow 2 exponent.toNat)
      else roundHalfEven (num * Nat.pow 2 (-exponent).toNat) den
    ofMagnitudeBits negative ((exponent - leastExponent).toNat * Nat.pow 2 52 + significand)

/-- The double nearest to `significand * 2 ^ exponent`. -/
def scaled (negative : Bool) (significand : Nat) (exponent : Int) : Float :=
  if 0 ≤ exponent then nearest negative (significand * Nat.pow 2 exponent.toNat) 1
  else nearest negative significand (Nat.pow 2 (-exponent).toNat)

/-- The quotient of integers that `significand * 2 ^ exponent` is. -/
def asQuotient (significand : Nat) (exponent : Int) : Nat × Nat :=
  if 0 ≤ exponent then (significand * Nat.pow 2 exponent.toNat, 1)
  else (significand, Nat.pow 2 (-exponent).toNat)

def isZero (x : Float) : Bool :=
  match form x with
  | .finite _ 0 _ => true
  | _ => false

def isBelowZero (x : Float) : Bool :=
  match form x with
  | .finite negative m _ => negative && m != 0
  | .infinite negative => negative
  | .nan => false

def isNaN (x : Float) : Bool :=
  match form x with
  | .nan => true
  | _ => false

theorem isNaN_ofMagnitudeBits (negative : Bool) (bits : Nat) :
    isNaN (ofMagnitudeBits negative bits) = false := by
  unfold isNaN form
  simp only [toBits_ofMagnitudeBits, word, infinityBits, Nat.pow_eq]
  have hle : min bits (2047 * 2 ^ 52) ≤ 2047 * 2 ^ 52 := Nat.min_le_right ..
  generalize min bits (2047 * 2 ^ 52) = low at hle
  have hlow : ((if negative then 2 ^ 63 else 0) + low) / 2 ^ 52 % 2 ^ 11 = low / 2 ^ 52 ∧
      ((if negative then 2 ^ 63 else 0) + low) % 2 ^ 52 = low % 2 ^ 52 := by
    split <;> omega
  rw [hlow.1, hlow.2]
  by_cases hexponent : low / 2 ^ 52 = 2047
  · have hfraction : low % 2 ^ 52 = 0 := by omega
    rw [if_pos hexponent, if_pos hfraction]
  · rw [if_neg hexponent]
    by_cases hzero : low / 2 ^ 52 = 0
    · rw [if_pos hzero]
    · rw [if_neg hzero]

theorem roundHalfEven_one (n : Nat) : roundHalfEven n 1 = n := by
  have hlt : compare 0 1 = Ordering.lt := rfl
  simp [roundHalfEven, Nat.mod_one, hlt]

theorem topExponent_one {n : Nat} (h : n ≠ 0) : topExponent n 1 = n.log2 := by
  have hlog : Nat.log2 1 = 0 := by decide
  have hle := Nat.log2_self_le h
  simp [topExponent, hlog, hle]

def zero : Float := ofMagnitudeBits false 0

def infinity (negative : Bool) : Float := ofMagnitudeBits negative infinityBits

def nan : Float := .ofBits 0x7FF8000000000000

end Lox.Number
