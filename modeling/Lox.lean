import Lox.Command.Basic
import Lox.Command.Line
import Lox.Command.Path
import Lox.Command.Transcript
import Lox.Json.Basic
import Lox.Json.Flaw
import Lox.Json.Reader
import Lox.Json.Writer
import Lox.Main
import Lox.Number.Binary
import Lox.Number.Decimal
import Lox.Number.Numeral
import Lox.Number.Remainder
import Lox.Number.Whole
import Lox.Number.Written
import Lox.Parse.Cursor
import Lox.Parse.Expression
import Lox.Parse.Program
import Lox.Proofs.Command.Check
import Lox.Proofs.Command.Rekeyed
import Lox.Proofs.Command.Shown
import Lox.Proofs.Command.Uncut
import Lox.Proofs.Json.Number
import Lox.Proofs.Json.Quoted
import Lox.Proofs.Json.Written
import Lox.Proofs.Number.Natural
import Lox.Proofs.Number.Nearest
import Lox.Proofs.Number.Shortest
import Lox.Proofs.Parse.Calls
import Lox.Proofs.Parse.Follow
import Lox.Proofs.Parse.FollowExpression
import Lox.Proofs.Parse.FollowProgram
import Lox.Proofs.Parse.Fresh
import Lox.Proofs.Parse.FreshProgram
import Lox.Proofs.Parse.Grammar
import Lox.Proofs.Parse.Keys
import Lox.Proofs.Parse.Nearest
import Lox.Proofs.Parse.Plain
import Lox.Proofs.Parse.Progress
import Lox.Proofs.Parse.ReadExpression
import Lox.Proofs.Parse.ReadProgram
import Lox.Proofs.Parse.Splice
import Lox.Proofs.Parse.Step
import Lox.Proofs.Parse.TakeExpression
import Lox.Proofs.Parse.TakeProgram
import Lox.Proofs.Parse.Takes
import Lox.Proofs.Parse.Tape
import Lox.Proofs.Resolution.Advance
import Lox.Proofs.Resolution.Clean
import Lox.Proofs.Resolution.Findings
import Lox.Proofs.Resolution.Follow
import Lox.Proofs.Resolution.Lexical
import Lox.Proofs.Resolution.Loop
import Lox.Proofs.Resolution.Parsed
import Lox.Proofs.Resolution.Passages
import Lox.Proofs.Resolution.Rekeyed
import Lox.Proofs.Resolution.Reused
import Lox.Proofs.Resolution.Scoped
import Lox.Proofs.Resolution.Shading
import Lox.Proofs.Resolution.Site
import Lox.Proofs.Resolution.Split
import Lox.Proofs.Resolution.Stands
import Lox.Proofs.Resolution.Supply
import Lox.Proofs.Resolution.Table
import Lox.Proofs.Run.Agree
import Lox.Proofs.Run.Alarm
import Lox.Proofs.Run.Alike
import Lox.Proofs.Run.Blame
import Lox.Proofs.Run.Completed
import Lox.Proofs.Run.Contract
import Lox.Proofs.Run.Coupling
import Lox.Proofs.Run.Distance
import Lox.Proofs.Run.Endings
import Lox.Proofs.Run.Fits
import Lox.Proofs.Run.Forest
import Lox.Proofs.Run.Globals
import Lox.Proofs.Run.Grow
import Lox.Proofs.Run.Invariant
import Lox.Proofs.Run.Layers
import Lox.Proofs.Run.Loop
import Lox.Proofs.Run.Order
import Lox.Proofs.Run.Origin
import Lox.Proofs.Run.Outline
import Lox.Proofs.Run.Parts
import Lox.Proofs.Run.Plan
import Lox.Proofs.Run.Preserve
import Lox.Proofs.Run.Rekeyed
import Lox.Proofs.Run.Renumbered
import Lox.Proofs.Run.Renumbering
import Lox.Proofs.Run.ReturnFree
import Lox.Proofs.Run.SelfContained
import Lox.Proofs.Run.Shaded
import Lox.Proofs.Run.Simulation
import Lox.Proofs.Run.Steps
import Lox.Proofs.Run.Undefined
import Lox.Proofs.Run.Visit
import Lox.Proofs.Run.World
import Lox.Proofs.Run.Yields
import Lox.Proofs.Session.Delimiters
import Lox.Proofs.Session.Described
import Lox.Proofs.Session.Grouping
import Lox.Proofs.Session.Lines
import Lox.Proofs.Session.Memory
import Lox.Proofs.Session.Passing
import Lox.Proofs.Session.Rekeyed
import Lox.Proofs.Session.Unclosed
import Lox.Proofs.Source.Fragment
import Lox.Proofs.Source.Layout
import Lox.Proofs.Source.Lexeme
import Lox.Proofs.Source.Move
import Lox.Proofs.Source.Scanner
import Lox.Proofs.Source.Splice
import Lox.Proofs.Text.Digits
import Lox.Proofs.Tree.Accepted
import Lox.Proofs.Tree.Decoded
import Lox.Proofs.Tree.Drawn
import Lox.Proofs.Tree.Each
import Lox.Proofs.Tree.Encoded
import Lox.Proofs.Tree.ForLoop
import Lox.Proofs.Tree.Load
import Lox.Proofs.Tree.Loop
import Lox.Proofs.Tree.Notes
import Lox.Proofs.Tree.Parsed
import Lox.Proofs.Tree.Relabel
import Lox.Proofs.Tree.Schema
import Lox.Resolution.Basic
import Lox.Resolution.Diagnostic
import Lox.Resolution.Scope
import Lox.Run.Evaluate
import Lox.Run.Fault
import Lox.Run.Operator
import Lox.Run.State
import Lox.Run.Store
import Lox.Run.Value
import Lox.Session.Basic
import Lox.Session.Console
import Lox.Session.Delimiters
import Lox.Source.Location
import Lox.Source.Problem
import Lox.Source.Scan
import Lox.Source.Token
import Lox.Text
import Lox.Text.Utf8
import Lox.Tree.Basic
import Lox.Tree.Decode
import Lox.Tree.Encode
import Lox.Tree.Issue
import Lox.Tree.Load
import Lox.Tree.Supply
