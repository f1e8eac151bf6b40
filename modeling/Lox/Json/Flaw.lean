import Lox.Text

/-! What can be wrong with a text that should be a JSON value, and how it is reported. -/

namespace Lox.Json

open Text

inductive Flaw where
  /-- Something that starts no value, goes on with no word, or follows a leading zero. -/
  | unexpected
  | keyOrBrace | key | colon | commaOrBrace | commaOrBracket
  | unterminatedString | controlInString | badEscape | badUnicodeEscape
  | noDigitAfterMinus | noDigitAfterPoint | noDigitInExponent
  /-- More text after a whole value. -/
  | surplus
  deriving DecidableEq, Repr

/-- A flaw, and what was left to read where it shows. -/
structure ReadError where
  flaw : Flaw
  rest : Text
  deriving DecidableEq, Repr

def placeAfter (line column : Nat) : Text → Nat × Nat
  | [] => (line, column)
  | [u] => if u = newline || u = unit '\r' then (line + 1, 1) else (line, column + 1)
  | u :: v :: more =>
    if u = newline || (u = unit '\r' && v ≠ newline) then placeAfter (line + 1) 1 (v :: more)
    else placeAfter line (column + 1) (v :: more)

/-- So many units are shown on either side of one that is not expected. -/
def excerptWidth : Nat := 10

/-- The part of a text around an offset, in quotes, with points where something is left out. A text
that is hardly longer than the excerpt is shown in full. -/
def excerpt (source : Text) (offset : Nat) : Text :=
  let quoted (t : Text) : Text := unit '"' :: t ++ [unit '"']
  let start := offset - excerptWidth
  if source.length ≤ 2 * excerptWidth then quoted source
  else if offset < excerptWidth then quoted (source.take (offset + excerptWidth)) ++ "..."
  else if offset + excerptWidth < source.length then
    "..." ++ quoted ((source.drop start).take (2 * excerptWidth)) ++ "..."
  else "..." ++ quoted (source.drop start)

namespace ReadError

def offset (source : Text) (e : ReadError) : Nat := source.length - e.rest.length

/-- Where the flaw is, as messages say it. -/
def place (source : Text) (e : ReadError) : Text :=
  let offset := e.offset source
  let (line, column) := placeAfter 1 1 (source.take offset)
  " at position " ++ ofNat offset ++ " (line " ++ ofNat line ++ " column " ++ ofNat column ++ ")"

/-- What is said of a unit that is not expected, or of the end of the text. -/
def unexpectedMessage (source : Text) (e : ReadError) : Text :=
  match e.rest with
  | [] => "Unexpected end of JSON input"
  | u :: _ =>
    if isDigit u || u = unit '-' then "Unexpected number in JSON" ++ e.place source
    else if u = unit '"' then "Unexpected string in JSON" ++ e.place source
    else
      "Unexpected token '" ++ [u] ++ "', " ++ excerpt source (e.offset source)
        ++ " is not valid JSON"

def message (source : Text) (e : ReadError) : Text :=
  match e.flaw with
  | .unexpected => e.unexpectedMessage source
  | .keyOrBrace => "Expected property name or '\x7d' in JSON" ++ e.place source
  | .key => "Expected double-quoted property name in JSON" ++ e.place source
  | .colon => "Expected ':' after property name in JSON" ++ e.place source
  | .commaOrBrace => "Expected ',' or '\x7d' after property value in JSON" ++ e.place source
  | .commaOrBracket => "Expected ',' or ']' after array element in JSON" ++ e.place source
  | .unterminatedString => "Unterminated string in JSON" ++ e.place source
  | .controlInString => "Bad control character in string literal in JSON" ++ e.place source
  | .badEscape => "Bad escaped character in JSON" ++ e.place source
  | .badUnicodeEscape => "Bad Unicode escape in JSON" ++ e.place source
  | .noDigitAfterMinus => "No number after minus sign in JSON" ++ e.place source
  | .noDigitAfterPoint => "Unterminated fractional number in JSON" ++ e.place source
  | .noDigitInExponent => "Exponent part is missing a number in JSON" ++ e.place source
  | .surplus => "Unexpected non-whitespace character after JSON" ++ e.place source

end ReadError

end Lox.Json
