/-! Texts as sequences of UTF-16 code units, with blanks, lines and decimal digits.
Every length, column and cut of the language counts these units, and half of a surrogate
pair is a unit like any other. -/

namespace Lox

/-- One unit of UTF-16 encoded text. -/
abbrev CodeUnit := UInt16

/-- A sequence of code units; surrogates need not be paired. -/
abbrev Text := List CodeUnit

namespace Text

/-- A character above U+FFFF takes two units, the high surrogate first. -/
def ofChar (c : Char) : Text :=
  let n := c.toNat
  if n < 0x10000 then [n.toUInt16]
  else [(0xD800 + (n - 0x10000) / 0x400).toUInt16, (0xDC00 + (n - 0x10000) % 0x400).toUInt16]

def ofString (s : String) : Text := s.toList.flatMap ofChar

instance : Coe String Text := ⟨ofString⟩

/-- The unit of a character below U+10000. -/
def unit (c : Char) : CodeUnit := c.toNat.toUInt16

def newline : CodeUnit := unit '\n'

def doubleQuote : CodeUnit := unit '"'

def isHighSurrogate (u : CodeUnit) : Bool := 0xD800 ≤ u && u < 0xDC00

def isLowSurrogate (u : CodeUnit) : Bool := 0xDC00 ≤ u && u < 0xE000

/-- The character above U+FFFF that a surrogate pair stands for. -/
def pairedChar (high low : CodeUnit) : Char :=
  Char.ofNat (0x10000 + (high.toNat - 0xD800) * 0x400 + (low.toNat - 0xDC00))

/-- Pairs are joined; what `lone` gives stands for a surrogate without its partner. -/
def toCharsWith (lone : CodeUnit → List Char) : Text → List Char
  | [] => []
  | [u] => if isHighSurrogate u || isLowSurrogate u then lone u else [Char.ofNat u.toNat]
  | u :: v :: rest =>
    if isHighSurrogate u && isLowSurrogate v then pairedChar u v :: toCharsWith lone rest
    else if isHighSurrogate u || isLowSurrogate u then lone u ++ toCharsWith lone (v :: rest)
    else Char.ofNat u.toNat :: toCharsWith lone (v :: rest)

/-- As a string; a surrogate without its partner becomes U+FFFD. -/
def toString (t : Text) : String := String.ofList (toCharsWith (fun _ => ['\uFFFD']) t)

def isDigit (u : CodeUnit) : Bool := unit '0' ≤ u && u ≤ unit '9'

/-- An ASCII letter or an underscore: what a name may start with. -/
def isLetter (u : CodeUnit) : Bool :=
  (unit 'a' ≤ u && u ≤ unit 'z') || (unit 'A' ≤ u && u ≤ unit 'Z') || u == unit '_'

/-- What a name may go on with. -/
def isWordUnit (u : CodeUnit) : Bool := isLetter u || isDigit u

def isIdentifier : Text → Bool
  | [] => false
  | u :: rest => isLetter u && rest.all isWordUnit

/-- The Unicode spaces, the line ends and the byte order mark. -/
def blanks : List CodeUnit :=
  [0x0009, 0x000A, 0x000B, 0x000C, 0x000D, 0x0020, 0x00A0, 0x1680,
    0x2000, 0x2001, 0x2002, 0x2003, 0x2004, 0x2005, 0x2006, 0x2007, 0x2008, 0x2009, 0x200A,
    0x2028, 0x2029, 0x202F, 0x205F, 0x3000, 0xFEFF]

def isBlank (u : CodeUnit) : Bool := blanks.contains u

/-- Without the blanks at either end. -/
def trim (t : Text) : Text :=
  ((t.dropWhile isBlank).reverse.dropWhile isBlank).reverse

def firstWord (t : Text) : Text := t.takeWhile (! isBlank ·)

/-- The parts of `t` between the separators; there is always at least one. -/
def splitOn (separator : CodeUnit) : Text → List Text
  | [] => [[]]
  | u :: rest =>
    match splitOn separator rest with
    | [] => [[u]]
    | part :: parts => if u = separator then [] :: part :: parts else (u :: part) :: parts

/-- The parts one after the other, with `separator` between neighbours. -/
def join (separator : Text) : List Text → Text
  | [] => []
  | [t] => t
  | t :: rest => t ++ separator ++ join separator rest

def ofNat (n : Nat) : Text := (Nat.toDigits 10 n).map unit

/-- The number with its noun, which gets an `s` unless the number is one. -/
def counted (n : Nat) (noun : Text) : Text :=
  ofNat n ++ " " ++ noun ++ (if n = 1 then "" else "s")

def digitsValue (digits : Text) : Nat :=
  digits.foldl (fun n u => 10 * n + (u.toNat - (unit '0').toNat)) 0

end Text

end Lox
