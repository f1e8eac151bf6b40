import Lox.Source.Problem

/-! What a command or a session writes, in order: lines that a program prints, lines of its own, and
complaints, which go to another stream. -/

namespace Lox

/-- The version that usage and greeting name. -/
def version : Text := "0.1.0"

inductive Event where
  /-- A line that a program prints. -/
  | printed (line : Text)
  | reported (line : Text)
  | complained (line : Text)
  /-- A prompt, which no newline follows. -/
  | prompted (text : Text)
  deriving DecidableEq, Repr

abbrev Transcript := List Event

namespace Transcript

open Text

/-- The lines that programs printed. -/
def printed (t : Transcript) : List Text :=
  t.filterMap fun
    | .printed line => some line
    | _ => none

/-- The text of the output stream, apart from what programs printed. -/
def reported (t : Transcript) : Text :=
  t.flatMap fun
    | .reported line => line ++ [newline]
    | .prompted text => text
    | _ => []

def output (t : Transcript) : Text :=
  t.flatMap fun
    | .printed line | .reported line => line ++ [newline]
    | .prompted text => text
    | .complained _ => []

def complaints (t : Transcript) : Text :=
  t.flatMap fun
    | .complained line => line ++ [newline]
    | _ => []

end Transcript

end Lox
