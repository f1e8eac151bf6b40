import Lox.Json.Basic
import Lox.Number.Written

/-! JSON values written as text, on one line or indented. Numbers have their plain form; those that
the format cannot express are null. -/

namespace Lox.Json

open Text

def hexDigits (u : CodeUnit) : Text :=
  let digits := (Nat.toDigits 16 u.toNat).map unit
  List.replicate (4 - digits.length) (unit '0') ++ digits

def unicodeEscape (u : CodeUnit) : Text := "\\u" ++ hexDigits u

/-- The controls that have an escape of one letter. -/
def shortEscapes : List (CodeUnit × Text) :=
  [(unit '"', "\\\""), (unit '\\', "\\\\"), (8, "\\b"), (9, "\\t"), (10, "\\n"), (12, "\\f"),
    (13, "\\r")]

/-- How a unit that is no half of a pair is written. -/
def writeUnit (u : CodeUnit) : Text :=
  match shortEscapes.lookup u with
  | some escape => escape
  | none =>
    if u < 0x20 || isHighSurrogate u || isLowSurrogate u then unicodeEscape u else [u]

/-- The inside of a string. Surrogates stand for themselves only in pairs. -/
def writeUnits : Text → Text
  | [] => []
  | [u] => writeUnit u
  | u :: v :: rest =>
    if isHighSurrogate u && isLowSurrogate v then u :: v :: writeUnits rest
    else writeUnit u ++ writeUnits (v :: rest)

def writeString (t : Text) : Text := unit '"' :: writeUnits t ++ [unit '"']

def writeNumber (x : Float) : Text :=
  match Number.form x with
  | .finite .. => Number.write .plain x
  | _ => "null"

def lineBreak (indent : Option Nat) (level : Nat) : Text :=
  match indent with
  | none => []
  | some width => newline :: List.replicate (width * level) (unit ' ')

def colon (indent : Option Nat) : Text := if indent.isSome then ": " else ":"

mutual

/-- A value that is nested `level` deep, with `rest` after it. -/
def writeOnto (indent : Option Nat) (level : Nat) (rest : Text) : Json → Text
  | .null => "null" ++ rest
  | .bool true => "true" ++ rest
  | .bool false => "false" ++ rest
  | .number x => writeNumber x ++ rest
  | .string t => writeString t ++ rest
  | .array [] => "[]" ++ rest
  | .array (item :: items) =>
    "[" ++ (lineBreak indent (level + 1)
      ++ writeOnto indent (level + 1) (writeItems indent level rest items) item)
  | .object [] => "\x7b\x7d" ++ rest
  | .object ((key, value) :: fields) =>
    "\x7b" ++ (lineBreak indent (level + 1) ++ (writeString key ++ (colon indent
      ++ writeOnto indent (level + 1) (writeFields indent level rest fields) value)))

/-- The items after the first one of an array that is nested `level` deep, and its end. -/
def writeItems (indent : Option Nat) (level : Nat) (rest : Text) : List Json → Text
  | [] => lineBreak indent level ++ ("]" ++ rest)
  | item :: items =>
    "," ++ (lineBreak indent (level + 1)
      ++ writeOnto indent (level + 1) (writeItems indent level rest items) item)

/-- The fields after the first one of an object that is nested `level` deep, and its end. -/
def writeFields (indent : Option Nat) (level : Nat) (rest : Text) : List (Text × Json) → Text
  | [] => lineBreak indent level ++ ("\x7d" ++ rest)
  | (key, value) :: fields =>
    "," ++ (lineBreak indent (level + 1) ++ (writeString key ++ (colon indent
      ++ writeOnto indent (level + 1) (writeFields indent level rest fields) value)))

end

def write (j : Json) : Text := writeOnto none 0 [] j

def writeIndented (j : Json) : Text := writeOnto (some 2) 0 [] j

end Lox.Json
