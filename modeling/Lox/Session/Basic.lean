import Lox.Command.Basic

/-! Sessions: inputs that run one after the other and share their globals. An input that is refused
changes nothing but the supply of keys; one that fails while it runs keeps what it did before. -/

namespace Lox

structure Session where
  /-- Whether inputs are resolved before they run. -/
  resolves : Bool
  globals : Environment
  state : State
  /-- The resolutions of all inputs so far. -/
  table : ResolutionTable
  /-- The first key that no node has yet. -/
  nextKey : Nat

namespace Session

open Text

/-- A session without definitions, with the first key that no node has yet. -/
def fresh (resolves : Bool) (nextKey : Nat) : Session :=
  let (globals, state) := Command.start
  ⟨resolves, globals, state, ∅, nextKey⟩

def new (resolves : Bool) : Session := fresh resolves firstKey

/-- Forgets every definition. The supply of keys goes on. -/
def reset (s : Session) : Session := fresh s.resolves s.nextKey

structure Answer where
  ok : Bool
  transcript : Transcript
  session : Session

/-- The line that shows the value of an input that is one expression; `nil` is not shown. -/
def echo : Value → Transcript
  | .nil => []
  | v => [.printed ("=> " ++ v.text)]

/-- Runs a program. If it is one expression, its value is shown. -/
def evaluate (ctx : Context) (work : Nat) (program : Program Node) : Eval Transcript :=
  match program with
  | [.expression _ e] => do
    let v ← ctx.evaluate work ctx.globals e
    return echo v
  | _ => do
    ctx.interpret work program
    return []

def runProgram (s : Session) (host : Host) (work : Nat) (program : Program Node)
    (table : ResolutionTable) (nextKey : Nat) : Option Answer :=
  let later (state : State) : Session :=
    { s with state := state.resumed, table := table, nextKey := nextKey }
  let printed (state : State) : Transcript := state.output.toList.map .printed
  match evaluate ⟨s.globals, table, host⟩ work program s.state with
  | .done echoed state => some ⟨true, printed state ++ echoed, later state⟩
  | .failed e state =>
    some ⟨false, printed state ++ [.complained ("  " ++ e.message)], later state⟩
  | .exhausted => none

def errorLine (e : SourceError) : Text :=
  "  Parse error at line " ++ Text.ofNat e.position.line ++ ", col "
    ++ Text.ofNat e.position.column ++ ": " ++ e.problem.message

/-- What an input needs before its program may run: the resolutions of the program, or what there is
to complain about. Globals that a later input may still define are not reported. -/
def vet (s : Session) (errors : List SourceError) (program : Program Node) :
    Except Transcript ResolutionTable :=
  if errors.isEmpty then
    let resolved :=
      if s.resolves then resolve (s.state.store.names s.globals) false program else .nothing
    if resolved.hasErrors then
      .error (resolved.diagnostics.map fun d => .complained ("  " ++ d.line))
    else .ok resolved.table
  else .error (errors.map fun e => .complained (errorLine e))

/-- Runs one input. Its nodes get keys before it is known whether it may run. -/
def run (s : Session) (host : Host) (work : Nat) (input : Text) : Option Answer :=
  let (parsed, nextKey) := parseKeyed s.nextKey input
  match s.vet parsed.errors parsed.program with
  | .error complaints => some ⟨false, complaints, { s with nextKey := nextKey }⟩
  | .ok table => s.runProgram host work parsed.program (s.table.merge table) nextKey

/-- Texts longer than `previewLimit` are cut off, with three points at the end. -/
def previewLimit : Nat := 60

def preview (t : Text) : Text :=
  if previewLimit < t.length then t.take (previewLimit - 3) ++ "..." else t

/-- The variables that the user has defined, in order; native functions are passed over. -/
def describe (s : Session) : List Text :=
  (s.state.store.names s.globals).filterMap fun x =>
    match s.state.store.get? s.globals x with
    | none | some (.native _) => none
    | some v => some ("  " ++ x ++ " = " ++ preview v.text)

inductive Request where
  | help | quit | variables | reset
  | unknown (word : Text)
  deriving DecidableEq, Repr

def requests : List (Text × Request) :=
  [(":help", .help), (":h", .help), (":quit", .quit), (":q", .quit), (":exit", .quit),
    (":env", .variables), (":reset", .reset)]

/-- Only the first word of a command line counts. -/
def request (line : Text) : Request :=
  let word := firstWord line
  (requests.lookup word).getD (.unknown word)

def helpLines : List Text :=
  ["",
    "REPL Commands:",
    "  :help, :h       Show this help message",
    "  :quit, :q       Exit the REPL",
    "  :env            Show user-defined globals",
    "  :reset          Forget every definition",
    "",
    "Tips:",
    "  - Multi-line input: leave braces/parens unclosed",
    "  - A lone expression prints its value",
    "  - Variables persist between inputs",
    ""]

/-- Answers a command line: what is written, the session after it, and whether it ends there. -/
def handle (s : Session) (line : Text) : Transcript × Session × Bool :=
  match request line with
  | .help => (helpLines.map .reported, s, false)
  | .quit => ([], s, true)
  | .variables =>
    let lines := s.describe
    let shown : List Text := if lines.isEmpty then ["  (no user-defined variables)"] else lines
    (shown.map .reported, s, false)
  | .reset => ([.reported "Interpreter state reset."], s.reset, false)
  | .unknown word =>
    ([.reported ("Unknown command: " ++ word ++ ". Type :help for available commands.")], s, false)

end Session

end Lox
