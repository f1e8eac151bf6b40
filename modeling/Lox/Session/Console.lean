import Lox.Session.Basic
import Lox.Session.Delimiters

/-! A session on a console, which is fed line by line. Lines are gathered until nothing in them is
left open, and then run as one input; command lines are only seen while none are gathered. -/

namespace Lox

structure Console where
  session : Session
  /-- The lines of an unfinished input, joined. -/
  pending : Option Text
  /-- Whether a command has closed the console. -/
  closed : Bool

namespace Console

open Text

def mainPrompt : Event := .prompted "lox> "

def morePrompt : Event := .prompted "  ... "

/-- What is written before the first line is read. -/
def greeting : Transcript :=
  [.reported ("Lox REPL v" ++ version), .reported "Type :help for commands, :quit to exit.\n",
    mainPrompt]

def farewell : Transcript := [.reported "\nGoodbye!"]

def new (resolves : Bool) : Console := ⟨.new resolves, none, false⟩

/-- Whether a line without its blanks is a command line. -/
def isCommand (line : Text) : Bool := line.head? = some (unit ':')

/-- An input that still needs lines, or one that is complete. -/
def feedText (c : Console) (host : Host) (work : Nat) (text : Text) :
    Option (Transcript × Console) :=
  if Delimiters.unclosed text then some ([morePrompt], { c with pending := some text })
  else
    let c := { c with pending := none }
    match trim text with
    | [] => some ([mainPrompt], c)
    | input =>
      (c.session.run host work input).map fun answer =>
        (answer.transcript ++ [mainPrompt], { c with session := answer.session })

/-- Takes one line. After the command that closes the console comes the farewell and one more
prompt. -/
def feed (c : Console) (host : Host) (work : Nat) (line : Text) : Option (Transcript × Console) :=
  match c.pending with
  | some text => c.feedText host work (text ++ [newline] ++ line)
  | none =>
    let command := trim line
    if isCommand command then
      let (transcript, session, closes) := c.session.handle command
      some (transcript ++ (if closes then farewell else []) ++ [mainPrompt],
        { c with session := session, closed := closes })
    else c.feedText host work line

/-- Takes lines until they end or the console is closed. An unfinished input is dropped. -/
def feedAll (c : Console) (host : Host) (work : Nat) : List Text → Option Transcript
  | [] => some farewell
  | line :: rest =>
    match c.feed host work line with
    | none => none
    | some (transcript, c) =>
      if c.closed then some transcript
      else (c.feedAll host work rest).map (transcript ++ ·)

end Console

end Lox
