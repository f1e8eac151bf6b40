import Lox.Parse.Cursor
import Lox.Tree.Basic

/-! Expressions read from tokens, one precedence level after the other. Every step has a number that
bounds the depth of its work, so that reading is a structural recursion. -/

namespace Lox

inductive InfixOp where
  | binary (op : BinaryOp)
  | logical (op : LogicalOp)
  deriving DecidableEq, Repr

def InfixOp.build {α : Type} (op : InfixOp) (note : α) (left right : Expr α) : Expr α :=
  match op with
  | .binary op => .binary note left op right
  | .logical op => .logical note left op right

/-- The infix operators by level, those that bind loosest first. -/
def infixLevels : List (List (TokenKind × InfixOp)) :=
  [[(.orWord, .logical .or)],
    [(.andWord, .logical .and)],
    [(.bangEqual, .binary .notEqual), (.equalEqual, .binary .equal)],
    [(.greater, .binary .greater), (.greaterEqual, .binary .greaterEqual),
      (.less, .binary .less), (.lessEqual, .binary .lessEqual)],
    [(.minus, .binary .subtract), (.plus, .binary .add)],
    [(.slash, .binary .divide), (.star, .binary .multiply), (.percent, .binary .remainder)]]

def unaryOps : List (TokenKind × UnaryOp) := [(.bang, .not), (.minus, .negate)]

/-- What a token stands for as a value; `nil` if it stands for nothing. -/
def TokenLiteral.value : TokenLiteral → Literal
  | .none => .nil
  | .number x => .number x
  | .string t => .string t

/-- The expression that a token is on its own. -/
def Token.operand? {ν : Type} (t : Token) (note : ν) : Option (Expr ν) :=
  match t.kind with
  | .falseWord => some (.literal note (.bool false))
  | .trueWord => some (.literal note (.bool true))
  | .nilWord => some (.literal note .nil)
  | .number | .string => some (.literal note t.literal.value)
  | .identifier => some (.reference note t.lexeme)
  | _ => none

namespace Parse

variable {σ ν : Type} [Supply σ Position ν]

def operandToken : Parser σ (Option (Expr ν)) := fun c =>
  match c.rest with
  | [] => (some none, c)
  | token :: rest =>
    let (note, supply) := Supply.draw token.position c.supply
    match token.operand? note with
    | some e => (some (some e), { c with rest := rest, supply := supply })
    | none => (some none, c)

mutual

/-- An assignment or anything that binds tighter. A target that cannot be assigned is reported,
and reading goes on. -/
def expression : Nat → Parser σ (Expr ν)
  | 0 => stuck
  | depth + 1 => do
    let target ← operation depth infixLevels
    match ← accept .equal with
    | none => return target
    | some sign =>
      let value ← expression depth
      match target with
      | .reference note name => return .assign (← redraw note) name value
      | _ =>
        reportAt sign .assignmentTarget
        return target

/-- Operands joined by the operators of the first level, or by those of a later one. -/
def operation : Nat → List (List (TokenKind × InfixOp)) → Parser σ (Expr ν)
  | 0, _ => stuck
  | depth + 1, [] => unary depth
  | depth + 1, level :: tighter => do
    let left ← operation depth tighter
    operationTail depth level tighter left

/-- Operators of one level associate to the left. -/
def operationTail : Nat → List (TokenKind × InfixOp) → List (List (TokenKind × InfixOp)) →
    Expr ν → Parser σ (Expr ν)
  | 0, _, _, _ => stuck
  | depth + 1, level, tighter, left => do
    match ← acceptWith fun kind => level.lookup kind with
    | none => return left
    | some (op, sign) =>
      let right ← operation depth tighter
      operationTail depth level tighter (op.build (← draw sign.position) left right)

def unary : Nat → Parser σ (Expr ν)
  | 0 => stuck
  | depth + 1 => do
    match ← acceptWith fun kind => unaryOps.lookup kind with
    | some (op, sign) =>
      let operand ← unary depth
      return .unary (← draw sign.position) op operand
    | none =>
      let callee ← primary depth
      callTail depth callee

/-- Calls associate to the left; the place of a call is its opening parenthesis. -/
def callTail : Nat → Expr ν → Parser σ (Expr ν)
  | 0, _ => stuck
  | depth + 1, callee => do
    match ← accept .leftParen with
    | none => return callee
    | some paren =>
      let args ← if ← check .rightParen then pure [] else arguments depth 0
      let _ ← expect .rightParen .parenAfterArguments
      callTail depth (.call (← draw paren.position) callee args)

/-- One argument or more, after `count` others. Too many are reported and read all the same. -/
def arguments : Nat → Nat → Parser σ (List (Expr ν))
  | 0, _ => stuck
  | depth + 1, count => do
    if argumentLimit ≤ count then report .fewerArguments
    let arg ← expression depth
    match ← accept .comma with
    | none => return [arg]
    | some _ =>
      let rest ← arguments depth (count + 1)
      return arg :: rest

def primary : Nat → Parser σ (Expr ν)
  | 0 => stuck
  | depth + 1 => do
    match ← operandToken with
    | some e => return e
    | none =>
      match ← accept .leftParen with
      | some paren =>
        let inner ← expression depth
        let _ ← expect .rightParen .parenAfterExpression
        return .grouping (← draw paren.position) inner
      | none => refuse .expression

end

end Parse

end Lox
