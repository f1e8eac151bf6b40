import Lox.Command.Basic
import Lox.Command.Path

/-! The command line: what its arguments ask for, and what then happens. -/

namespace Lox.Command

open Text

inductive Request where
  | session (resolves : Bool)
  | help
  | runText (resolves : Bool) (source : Text)
  | runFile (resolves : Bool) (file : Text)
  | runTreeFile (resolves : Bool) (file : Text)
  | check (files : List Text)
  | tree (file : Text)
  /-- Arguments that ask for nothing. -/
  | wrong (complaint : Text)
  /-- Arguments that ask for nothing, after which the usage is shown. -/
  | unexpected (args : List Text)
  deriving DecidableEq, Repr

def noResolve : Text := "--no-resolve"

/-- Reads the arguments of a command line. The option that turns resolving off may stand anywhere
among them. -/
def request (args : List Text) : Request :=
  let resolves := ! args.contains noResolve
  match args.filter (· ≠ noResolve) with
  | [] => .session resolves
  | first :: rest =>
    if first = "--help" || first = "-h" then .help
    else if first = "--eval" || first = "-e" then
      match rest with
      | [source] => .runText resolves source
      | _ => .wrong "--eval requires a code argument"
    else if first = "check" then
      if rest.isEmpty then .wrong "check requires at least one file argument" else .check rest
    else if first = "ast" then
      match rest with
      | [file] => .tree file
      | _ => .wrong "ast requires exactly one file argument"
    else if first = "run" then
      match rest with
      | [file] =>
        if file = "--ast" then .wrong "run requires exactly one file argument"
        else .runFile resolves file
      | [option, file] =>
        if option = "--ast" then .runTreeFile resolves file
        else .wrong "run requires exactly one file argument"
      | _ => .wrong "run requires exactly one file argument"
    else if ! rest.isEmpty || first.head? = some (unit '-') then .unexpected (first :: rest)
    else .runFile resolves first

def usage : Transcript :=
  let lines : List Text :=
    ["Lox v" ++ version,
      "",
      "Usage:",
      "  lox                            Start interactive REPL",
      "  lox <file.lox>                 Run a Lox file",
      "  lox run <file.lox>             Run a Lox file",
      "  lox run --ast <file.json>      Run a JSON syntax tree",
      "  lox check <file.lox> [...]     Check files for syntax and scope errors",
      "  lox ast <file.lox>             Print the JSON syntax tree",
      "  lox --eval \"<code>\"            Evaluate inline code",
      "  lox --help                     Show this help",
      "",
      "Options:",
      "  --no-resolve                   Skip the resolver; look variables up dynamically"]
  lines.map .reported

/-- The files that can be read: their contents by absolute path. -/
structure Files where
  cwd : Text
  read? : Text → Option Text

namespace Files

def contents (files : Files) (file : Text) : Except Event Text :=
  let path := Path.resolve files.cwd file
  match files.read? path with
  | some text => .ok text
  | none => .error (.complained ("Error: File not found: " ++ path))

def withContents (files : Files) (file : Text) (next : Text → Option Ending) : Option Ending :=
  match files.contents file with
  | .ok text => next text
  | .error complaint => some (ending .noInput [complaint])

def checkFile (files : Files) (file : Text) : Verdict × Transcript :=
  match files.contents file with
  | .ok source => checkSource source file
  | .error complaint => (.missing, [complaint])

end Files

def check (files : Files) (names : List Text) : Ending :=
  let found := names.map files.checkFile
  ending (checkCode (found.map (·.1))) (found.flatMap (·.2))

/-- What comes of a command line. -/
inductive Invocation where
  | session (resolves : Bool)
  | ended (ending : Ending)

/-- Carries out a request; nothing comes of one that needs more work than it is allowed. -/
def perform (host : Host) (work : Nat) (files : Files) : Request → Option Invocation
  | .session resolves => some (.session resolves)
  | .help => some (.ended (ending .ok usage))
  | .runText resolves source => (runSource host work resolves source "<eval>").map .ended
  | .runFile resolves file =>
    (files.withContents file fun t => runSource host work resolves t file).map .ended
  | .runTreeFile resolves file =>
    (files.withContents file fun t => runTree host work resolves t file).map .ended
  | .check names => some (.ended (check files names))
  | .tree file => (files.withContents file fun t => some (showTree t file)).map .ended
  | .wrong complaint => some (.ended (ending .usage [.complained ("Error: " ++ complaint)]))
  | .unexpected args =>
    some (.ended (ending .usage
      (.complained ("Error: unexpected arguments: " ++ join " " args) :: usage)))

end Lox.Command
