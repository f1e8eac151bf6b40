import Lox.Json.Basic
import Lox.Json.Flaw
import Lox.Number.Numeral

/-! JSON values read from text, by the letter of the format: no comments, no superfluous commas,
no leading zeros. Of several fields with one key the last wins. A text that is no value is refused
at its first flaw. -/

namespace Lox.Json

open Text

/-- What was read and what follows it, or the flaw at which reading stopped. -/
abbrev Reading (α : Type) := Except ReadError (α × Text)

variable {α : Type}

/-- Stops at a flaw in front of `rest`. -/
def flawed (flaw : Flaw) (rest : Text) : Reading α := .error ⟨flaw, rest⟩

/-- The white space between the parts of a JSON text. -/
def isSpace (u : CodeUnit) : Bool :=
  u == unit ' ' || u == unit '\t' || u == unit '\n' || u == unit '\r'

def skipSpace (t : Text) : Text := t.dropWhile isSpace

def isHexDigit (u : CodeUnit) : Bool := (Number.digit? 16 u).isSome

/-- Four hexadecimal digits as one unit. -/
def hexUnit? (digits : Text) : Option CodeUnit :=
  if digits.length = 4 then (Number.based? 16 digits).map Nat.toUInt16 else none

/-- The units that stand for themselves or for a control after a backslash. -/
def escapes : List (CodeUnit × CodeUnit) :=
  [(unit '"', unit '"'), (unit '\\', unit '\\'), (unit '/', unit '/'), (unit 'b', 8),
    (unit 'f', 12), (unit 'n', 10), (unit 'r', 13), (unit 't', 9)]

/-- What follows the opening quote of a string; `read` holds the units so far, last first. -/
def stringTail (read : Text) : Text → Reading Text
  | [] => flawed .unterminatedString []
  | u :: rest =>
    if u = unit '"' then .ok (read.reverse, rest)
    else if u < 0x20 then flawed .controlInString (u :: rest)
    else if u = unit '\\' then
      match rest with
      | a :: b :: c :: d :: e :: more =>
        if a = unit 'u' then
          match hexUnit? [b, c, d, e] with
          | some v => stringTail (v :: read) more
          | none => flawed .badUnicodeEscape ((b :: c :: d :: e :: more).dropWhile isHexDigit)
        else
          match escapes.lookup a with
          | some v => stringTail (v :: read) (b :: c :: d :: e :: more)
          | none => flawed .badEscape (a :: b :: c :: d :: e :: more)
      | a :: more =>
        if a = unit 'u' then flawed .badUnicodeEscape (more.dropWhile isHexDigit)
        else
          match escapes.lookup a with
          | some v => stringTail (v :: read) more
          | none => flawed .badEscape (a :: more)
      | [] => flawed .unterminatedString []
    else stringTail (u :: read) rest

def wholePart (t : Text) : Reading Text :=
  match t.takeWhile isDigit with
  | [] => flawed .noDigitAfterMinus t
  | [u] => .ok ([u], t.drop 1)
  | u :: v :: digits =>
    if u = unit '0' then flawed .unexpected (t.drop 1)
    else .ok (u :: v :: digits, t.dropWhile isDigit)

def digits (missing : Flaw) (t : Text) : Reading Text :=
  match t.takeWhile isDigit with
  | [] => flawed missing t
  | ds => .ok (ds, t.dropWhile isDigit)

/-- A point with digits after it, or nothing. -/
def fractionPart : Text → Reading Text
  | [] => .ok ([], [])
  | u :: rest => if u = unit '.' then digits .noDigitAfterPoint rest else .ok ([], u :: rest)

def exponentPart : Text → Reading Int
  | [] => .ok (0, [])
  | u :: rest =>
    if u = unit 'e' || u = unit 'E' then
      let (negative, rest) := Number.takeSign rest
      (digits .noDigitInExponent rest).map fun (ds, rest) =>
        (if negative then -(digitsValue ds : Int) else digitsValue ds, rest)
    else .ok (0, u :: rest)

def readNumber (t : Text) : Except ReadError (Float × Text) := do
  let negative := t.head? = some (unit '-')
  let (whole, rest) ← wholePart (if negative then t.drop 1 else t)
  let (fraction, rest) ← fractionPart rest
  let (exponent, rest) ← exponentPart rest
  return ((Number.ofDigits whole fraction exponent).toFloat negative, rest)

/-- The values that are written as words, by the first units of the words. -/
def words : List (CodeUnit × Text × Json) :=
  [(unit 'n', "null", .null), (unit 't', "true", .bool true), (unit 'f', "false", .bool false)]

def afterWord : Text → Text → Except ReadError Text
  | [], t => .ok t
  | _ :: _, [] => .error ⟨.unexpected, []⟩
  | w :: word, u :: rest =>
    if w = u then afterWord word rest else .error ⟨.unexpected, u :: rest⟩

def readWord (t : Text) : Reading Json :=
  match t.head?.bind (List.lookup · words) with
  | some (word, value) => (afterWord word t).map fun rest => (value, rest)
  | none => flawed .unexpected t

mutual

/-- A value at the start of a text, and what follows it. The first number bounds the nesting. -/
def readValue : Nat → Text → Reading Json
  | 0, t => flawed .unexpected t
  | depth + 1, t =>
    match t with
    | [] => flawed .unexpected []
    | u :: rest =>
      if u = unit '\x7b' then
        let rest := skipSpace rest
        if rest.head? = some (unit '\x7d') then .ok (.object [], rest.drop 1)
        else readMembers depth .keyOrBrace [] rest
      else if u = unit '[' then
        let rest := skipSpace rest
        if rest.head? = some (unit ']') then .ok (.array [], rest.drop 1)
        else readItems depth [] rest
      else if u = unit '"' then (stringTail [] rest).map fun (s, rest) => (.string s, rest)
      else if isDigit u || u = unit '-' then (readNumber t).map fun (x, rest) => (.number x, rest)
      else readWord t

/-- The items of an array from one of them on; `read` holds those before, last first. -/
def readItems : Nat → List Json → Text → Reading Json
  | 0, _, t => flawed .unexpected t
  | depth + 1, read, t =>
    match readValue depth t with
    | .error e => .error e
    | .ok (item, rest) =>
      match skipSpace rest with
      | u :: rest =>
        if u = unit ',' then readItems depth (item :: read) (skipSpace rest)
        else if u = unit ']' then .ok (.array (item :: read).reverse, rest)
        else flawed .commaOrBracket (u :: rest)
      | [] => flawed .commaOrBracket []

/-- The members of an object from one of them on; `read` holds the fields before, and `missing` is
the flaw of a member without a key. -/
def readMembers : Nat → Flaw → List (Text × Json) → Text → Reading Json
  | 0, _, _, t => flawed .unexpected t
  | depth + 1, missing, read, t =>
    match t with
    | [] => flawed missing []
    | u :: rest =>
      if u ≠ unit '"' then flawed missing (u :: rest)
      else
        match stringTail [] rest with
        | .error e => .error e
        | .ok (key, rest) =>
          match skipSpace rest with
          | [] => flawed .colon []
          | u :: rest =>
            if u ≠ unit ':' then flawed .colon (u :: rest)
            else
              match readValue depth (skipSpace rest) with
              | .error e => .error e
              | .ok (field, rest) =>
                match skipSpace rest with
                | u :: rest =>
                  if u = unit ',' then
                    readMembers depth .key (setField key field read) (skipSpace rest)
                  else if u = unit '\x7d' then .ok (.object (setField key field read), rest)
                  else flawed .commaOrBrace (u :: rest)
                | [] => flawed .commaOrBrace []

end

/-- The value that a whole text is. Every step of the reader takes a unit, or is followed by one
that does, so twice the length bounds the nesting. -/
def read (t : Text) : Except ReadError Json :=
  match readValue (2 * t.length + 2) (skipSpace t) with
  | .ok (result, rest) =>
    let rest := skipSpace rest
    if rest.isEmpty then .ok result else .error ⟨.surplus, rest⟩
  | .error e => .error e

end Lox.Json
