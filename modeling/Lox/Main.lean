import Lox.Command.Line
import Lox.Session.Console
import Lox.Text.Utf8
import Std.Time.DateTime.Timestamp

/-! The program: it reads the files that its arguments may name, carries out what the arguments ask
for, and feeds a console with the lines of its input where they ask for a session. -/

namespace Lox.Main

open Command

/-- More work than any run can do. -/
def work : Nat := Nat.pow 2 62

/-- A clock that shows the time in seconds and goes on by a millisecond with every call. It is read
before a run, since no call can ask for the time during it. -/
def clock : IO Clock := do
  let time ← Std.Time.Timestamp.now
  let start := time.toMillisecondsSinceUnixEpoch.val.toNat
  return fun calls => Number.ofNat (start + calls) / 1000

def write (t : Transcript) : IO Unit := do
  let out ← IO.getStdout
  let err ← IO.getStderr
  for event in t do
    match event with
    | .printed line | .reported line => out.putStr (Text.toString line ++ "\n")
    | .prompted text => out.putStr (Text.toString text)
    | .complained line => err.putStr (Text.toString line ++ "\n")
  out.flush

/-- The file that an argument names, if there is one. -/
def readFile (cwd : Text) (arg : String) : IO (List (Text × Text)) := do
  let path := Path.resolve cwd arg
  try
    let bytes ← IO.FS.readBinFile (Text.toString path)
    return [(path, Utf8.decode bytes.toList)]
  catch _ => return []

/-- Takes lines until they end or the console is closed. -/
partial def converse (console : Console) : IO Unit := do
  let line ← (← IO.getStdin).getLine
  if line.isEmpty then write Console.farewell
  else
    let line := (line.dropEndWhile (· = '\n')).toString
    match console.feed (.standard (← clock)) work line with
    | none => return
    | some (transcript, console) =>
      write transcript
      if ! console.closed then converse console

end Lox.Main

open Lox Lox.Main in
/-- Runs the command line. -/
def main (args : List String) : IO UInt32 := do
  let cwd : Text := (← IO.currentDir).toString
  let contents ← args.mapM (readFile cwd)
  let files : Command.Files := ⟨cwd, fun path => contents.flatten.lookup path⟩
  let request := Command.request (args.map Text.ofString)
  match Command.perform (.standard (← clock)) work files request with
  | none => return 1
  | some (.ended ending) =>
    write ending.transcript
    return ending.code.toUInt32
  | some (.session resolves) =>
    write Console.greeting
    converse (.new resolves)
    return 0
