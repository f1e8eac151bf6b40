import Lox.Command.Transcript
import Lox.Json.Reader
import Lox.Json.Writer
import Lox.Parse.Program
import Lox.Run.Evaluate
import Lox.Tree.Decode
import Lox.Tree.Encode

/-! The commands on programs: running source texts and trees, checking files, and showing trees. A
command ends with an exit code; running one may need more work than it is allowed. -/

namespace Lox

/-- How a command ended, and what it wrote. -/
structure Ending where
  code : Nat
  transcript : Transcript

/-- The exit codes: success, wrong usage, faulty input, missing input, and failure in a run. -/
inductive ExitCode where
  | ok | usage | dataError | noInput | software
  deriving DecidableEq, Repr

def ExitCode.number : ExitCode → Nat
  | ok => 0
  | usage => 64
  | dataError => 65
  | noInput => 66
  | software => 70

namespace Command

open Text

def ending (code : ExitCode) (transcript : Transcript) : Ending := ⟨code.number, transcript⟩

/-- A heading and the lines below it, as complaints. -/
def refusal (heading : Text) (lines : List Text) : Ending :=
  ending .dataError (.complained heading :: lines.map .complained)

/-- An interpreter at its start: the globals with the standard functions. -/
def start : Environment × State :=
  let (globals, store) := Store.empty.root Native.standard
  (globals, { State.empty with store := store })

def finished : Outcome Unit → Option Ending
  | .done _ s => some (ending .ok (s.output.toList.map .printed))
  | .failed e s => some (ending .software (s.output.toList.map .printed ++ [.complained e.message]))
  | .exhausted => none

/-- Runs a program, after resolving it unless that is turned off. -/
def runProgram (host : Host) (work : Nat) (resolves : Bool) (program : Program Node)
    (filename : Text) : Option Ending :=
  let (globals, state) := start
  let resolved :=
    if resolves then resolve (state.store.names globals) true program else .nothing
  if resolved.hasErrors then
    some (refusal ("Resolve errors in " ++ filename ++ ":")
      (resolved.diagnostics.map fun d => "  " ++ d.line))
  else
    finished (Context.interpret ⟨globals, resolved.table, host⟩ work program state)

def parseRefusal (filename : Text) (errors : List SourceError) : Ending :=
  refusal ("Parse errors in " ++ filename ++ ":") (errors.map SourceError.line)

def runSource (host : Host) (work : Nat) (resolves : Bool) (source filename : Text) :
    Option Ending :=
  match parseKeyed? firstKey source with
  | .error errors => some (parseRefusal filename errors)
  | .ok program => runProgram host work resolves program filename

/-- Runs the tree whose JSON form a text holds. -/
def runTree (host : Host) (work : Nat) (resolves : Bool) (text filename : Text) : Option Ending :=
  match Json.read text with
  | .error e => some (refusal ("Invalid JSON in " ++ filename ++ ": " ++ e.message text) [])
  | .ok json =>
    match Program.ofJsonKeyed? firstKey (some json) with
    | .wrong first rest =>
      some (refusal ("Invalid syntax tree in " ++ filename ++ ":")
        ((first :: rest).map fun i => "  " ++ i.line))
    | .ok (program, _) => runProgram host work resolves program filename

/-- Shows the tree of a source text in its JSON form. -/
def showTree (source filename : Text) : Ending :=
  match parse? source with
  | .error errors => parseRefusal filename errors
  | .ok program =>
    ending .ok [.reported (Program.toJson (Program.map .ofPosition program)).writeIndented]

/-- What is found in one file. -/
inductive Verdict where
  | missing
  | clean
  | faulty
  deriving DecidableEq, Repr

/-- A mark with a file's name and what was found there. -/
def checkLine (mark filename : Text) (found : Text) : Event :=
  .reported (mark ++ " " ++ filename ++ ": " ++ found)

def checkSource (source filename : Text) : Verdict × Transcript :=
  match parseKeyed? firstKey source with
  | .error errors =>
    (.faulty, checkLine "✗" filename (counted errors.length "parse error") ::
      errors.map fun e => .reported e.line)
  | .ok program =>
    let diagnostics := (resolve (Native.standard.map (·.name)) true program).diagnostics
    if diagnostics.isEmpty then (.clean, [checkLine "✓" filename "no errors"])
    else
      (.faulty, checkLine "✗" filename (counted diagnostics.length "error") ::
        diagnostics.map fun d => .reported ("  " ++ d.line))

/-- The exit code for the files of a check: a missing one counts more than a faulty one. -/
def checkCode (verdicts : List Verdict) : ExitCode :=
  if verdicts.contains .missing then .noInput
  else if verdicts.contains .faulty then .dataError
  else .ok

end Command

end Lox
