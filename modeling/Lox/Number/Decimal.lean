import Lox.Number.Whole

/-! Decimal fractions: the double nearest to one, and the shortest one that reads back as a given
double. -/

namespace Lox.Number

/-- The number `coefficient * 10 ^ exponent`. -/
structure Decimal where
  coefficient : Nat
  exponent : Int
  deriving DecidableEq, Repr

namespace Decimal

/-- Beyond these powers of ten every coefficient gives an infinity or a zero. -/
def exponentLimit : Int := 400

/-- The nearest double. Powers of ten are only computed where they can matter. -/
def toFloat (negative : Bool) (d : Decimal) : Float :=
  if d.coefficient = 0 then ofMagnitudeBits negative 0
  else if exponentLimit < d.exponent then infinity negative
  else if d.exponent + d.coefficient.log2 + 1 < -exponentLimit then ofMagnitudeBits negative 0
  else if 0 ≤ d.exponent then nearest negative (d.coefficient * Nat.pow 10 d.exponent.toNat) 1
  else nearest negative d.coefficient (Nat.pow 10 (-d.exponent).toNat)

/-- The least `p` with `num / den < 10 ^ p`. A power of two has its decimal exponent from the
logarithm of two, which is close enough to 30103 / 100000 for every exponent of a double. -/
def pointPosition (num den : Nat) : Int :=
  let guess := topExponent num den * 30103 / 100000 + 1
  let below :=
    if 0 ≤ guess then num < den * Nat.pow 10 guess.toNat
    else num * Nat.pow 10 (-guess).toNat < den
  if below then guess else guess + 1

/-- Of the two neighbours of `num / den` among the multiples of `10 ^ exponent`, the nearer one
that passes `accept`; of two equally near ones the even one. -/
def neighbour? (accept : Decimal → Bool) (num den : Nat) (exponent : Int) : Option Decimal :=
  let (num, den) :=
    if 0 ≤ exponent then (num, den * Nat.pow 10 exponent.toNat)
    else (num * Nat.pow 10 (-exponent).toNat, den)
  let below : Decimal := ⟨num / den, exponent⟩
  let above : Decimal := ⟨num / den + 1, exponent⟩
  let nearer : Decimal := ⟨roundHalfEven num den, exponent⟩
  if accept nearer then some nearer
  else if accept below then some below
  else if accept above then some above
  else none

/-- All digits of `significand * 2 ^ exponent`: a negative power of two is a power of five over
one of ten. -/
def exact (significand : Nat) (exponent : Int) : Decimal :=
  if 0 ≤ exponent then ⟨significand * Nat.pow 2 exponent.toNat, 0⟩
  else ⟨significand * Nat.pow 5 (-exponent).toNat, exponent⟩

/-- Seventeen digits are enough to tell any two doubles apart. -/
def mostDigits : Nat := 17

/-- The decimal with the fewest digits that reads back as the positive double
`significand * 2 ^ exponent`, and the nearest of those. -/
def shortest (significand : Nat) (exponent : Int) : Decimal :=
  let x := scaled false significand exponent
  let (num, den) := asQuotient significand exponent
  let point := pointPosition num den
  let found := (List.range mostDigits).findSome? fun (n : Nat) =>
    neighbour? (fun d => d.toFloat false = x) num den (point - (n + 1))
  found.getD (exact significand exponent)

end Decimal

end Lox.Number
