import Lox.Number.Decimal
import Lox.Text

/-! Numbers read from text: decimal fractions with an optional exponent, and the other spellings a
number may have when a whole text is taken as one. -/

namespace Lox.Number

open Text

/-- Reads `digits`, or `digits.digits` with either side possibly empty, as one coefficient. -/
def ofDigits (whole fraction : Text) (exponent : Int) : Decimal :=
  ⟨digitsValue (whole ++ fraction), exponent - fraction.length⟩

/-- The value of a number as the language writes it: digits, perhaps with a point and digits. -/
def ofLexeme (lexeme : Text) : Float :=
  let whole := lexeme.takeWhile isDigit
  (ofDigits whole ((lexeme.dropWhile isDigit).drop 1) 0).toFloat false

def takeSign : Text → Bool × Text
  | [] => (false, [])
  | u :: rest =>
    if u = unit '-' then (true, rest)
    else if u = unit '+' then (false, rest)
    else (false, u :: rest)

/-- An exponent part that reaches to the end; no text at all is the exponent zero. -/
def exponentPart? : Text → Option Int
  | [] => some 0
  | u :: rest =>
    if u = unit 'e' || u = unit 'E' then
      let (negative, digits) := takeSign rest
      if digits.isEmpty || ! digits.all isDigit then none
      else some (if negative then -(digitsValue digits : Int) else digitsValue digits)
    else none

/-- An unsigned decimal with an optional point and an optional exponent, and nothing after it. -/
def decimal? (t : Text) : Option Decimal :=
  let whole := t.takeWhile isDigit
  let rest := t.dropWhile isDigit
  let (fraction, rest) :=
    match rest with
    | u :: rest' =>
      if u = unit '.' then (rest'.takeWhile isDigit, rest'.dropWhile isDigit) else ([], rest)
    | [] => ([], [])
  if whole.isEmpty && fraction.isEmpty then none
  else (exponentPart? rest).map (ofDigits whole fraction)

def digit? (base : Nat) (u : CodeUnit) : Option Nat :=
  let value :=
    if isDigit u then some (u.toNat - (unit '0').toNat)
    else if unit 'a' ≤ u && u ≤ unit 'f' then some (u.toNat - (unit 'a').toNat + 10)
    else if unit 'A' ≤ u && u ≤ unit 'F' then some (u.toNat - (unit 'A').toNat + 10)
    else none
  value.filter (· < base)

def based? (base : Nat) (digits : Text) : Option Nat :=
  if digits.isEmpty then none
  else digits.foldlM (fun n u => (digit? base u).map (base * n + ·)) 0

/-- The base that `x`, `o` or `b` after a leading zero announces. -/
def base? (u : CodeUnit) : Option Nat :=
  if u = unit 'x' || u = unit 'X' then some 16
  else if u = unit 'o' || u = unit 'O' then some 8
  else if u = unit 'b' || u = unit 'B' then some 2
  else none

/-- A signed decimal or infinity. -/
def signed? (t : Text) : Option Float :=
  let (negative, magnitude) := takeSign t
  if magnitude = "Infinity" then some (infinity negative)
  else (decimal? magnitude).map (·.toFloat negative)

/-- A whole text as a number: blanks around it do not count, an empty text is zero, and a text
that is no number is not a number. -/
def ofText (t : Text) : Float :=
  match trim t with
  | [] => zero
  | [u] => (signed? [u]).getD nan
  | u :: v :: rest =>
    match if u = unit '0' then base? v else none with
    | some base => ((based? base rest).map ofNat).getD nan
    | none => (signed? (u :: v :: rest)).getD nan

end Lox.Number
