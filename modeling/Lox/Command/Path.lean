import Lox.Text

/-! Paths of files, made absolute. -/

namespace Lox.Path

open Text

def slash : CodeUnit := unit '/'

/-- The steps of a path from the root, with the empty ones and those to the same directory left
out, and those to the parent directory carried out; `taken` holds the steps so far, last first. -/
def steps (taken : List Text) : List Text → List Text
  | [] => taken.reverse
  | step :: rest =>
    if step.isEmpty || step = "." then steps taken rest
    else if step = ".." then steps taken.tail rest
    else steps (step :: taken) rest

/-- The absolute path that a path stands for in the directory `cwd`. -/
def resolve (cwd path : Text) : Text :=
  let whole := if path.head? = some slash then path else cwd ++ [slash] ++ path
  slash :: join [slash] (steps [] (splitOn slash whole))

end Lox.Path
