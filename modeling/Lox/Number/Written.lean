import Lox.Number.Decimal
import Lox.Text

/-! Numbers written as text: in the fewest digits that read back, with or without an exponent. -/

namespace Lox.Number

open Text

/-- The choices in which the written forms of numbers differ. -/
structure Style where
  /-- Whether negative zero keeps its sign. -/
  signedZero : Bool
  /-- Whether an integral number below `10 ^ pointLimit` is written with all its digits. -/
  wholeInFull : Bool
  /-- The last position of the decimal point that needs no exponent. -/
  pointLimit : Int
  /-- The least position of the decimal point that needs no exponent. -/
  pointLeast : Int

/-- The plain form, in which zero has no sign. -/
def Style.plain : Style := ⟨false, false, 21, -5⟩

/-- The plain form that also shows the sign of zero. -/
def Style.signed : Style := ⟨true, false, 21, -5⟩

/-- How a program prints its numbers: integers in full, and zero with its sign. -/
def Style.printed : Style := ⟨true, true, 21, -5⟩

def dropTrailingZeros (digits : Text) : Text :=
  (digits.reverse.dropWhile (· = unit '0')).reverse

def zeros (n : Nat) : Text := List.replicate n (unit '0')

/-- Digits with the decimal point after the first `point` of them, or with an exponent where that
would take too many zeros. -/
def layout (style : Style) (digits : Text) (point : Int) : Text :=
  let count : Int := digits.length
  if style.pointLeast ≤ point ∧ point ≤ style.pointLimit then
    if count ≤ point then digits ++ zeros (point - count).toNat
    else if 0 < point then
      digits.take point.toNat ++ "." ++ digits.drop point.toNat
    else "0." ++ zeros (-point).toNat ++ digits
  else
    let power := point - 1
    let sign : Text := if power < 0 then "-" else "+"
    let fraction : Text := if digits.length ≤ 1 then [] else "." ++ digits.drop 1
    digits.take 1 ++ fraction ++ "e" ++ sign ++ Text.ofNat power.natAbs

def writeShortest (style : Style) (significand : Nat) (exponent : Int) : Text :=
  let d := Decimal.shortest significand exponent
  let digits := Text.ofNat d.coefficient
  layout style (dropTrailingZeros digits) (d.exponent + digits.length)

/-- The form of the positive number `significand * 2 ^ exponent`. -/
def writePositive (style : Style) (significand : Nat) (exponent : Int) : Text :=
  match if style.wholeInFull then whole? significand exponent else none with
  | some n =>
    if n < Nat.pow 10 style.pointLimit.toNat then Text.ofNat n
    else writeShortest style significand exponent
  | none => writeShortest style significand exponent

def write (style : Style) (x : Float) : Text :=
  match form x with
  | .nan => "NaN"
  | .infinite negative => (if negative then "-" else "") ++ "Infinity"
  | .finite negative 0 _ => if negative && style.signedZero then "-0" else "0"
  | .finite negative m e => (if negative then "-" else "") ++ writePositive style m e

end Lox.Number
