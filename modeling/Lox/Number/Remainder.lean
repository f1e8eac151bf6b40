import Lox.Number.Binary

/-! The remainder of a truncating division of doubles, which is always exact. -/

namespace Lox.Number

/-- The remainder of `x` by `y` with the sign of `x`. Both are integers at the scale of the smaller
exponent, so the remainder of those integers is the whole answer. -/
def remainder (x y : Float) : Float :=
  match form x, form y with
  | .nan, _ => nan
  | _, .nan => nan
  | .infinite _, _ => nan
  | .finite .., .infinite _ => x
  | .finite _ _ _, .finite _ 0 _ => nan
  | .finite negative m e, .finite _ m' e' =>
    let scale := min e e'
    let dividend := m * Nat.pow 2 (e - scale).toNat
    let divisor := m' * Nat.pow 2 (e' - scale).toNat
    scaled negative (dividend % divisor) scale

end Lox.Number
