import Lox.Parse.Expression

/-! Programs read from tokens. After an error the parser goes on at the next statement, so one
reading reports every problem of a text. -/

namespace Lox

namespace Parse

variable {σ ν : Type} [Supply σ Position ν]

/-- One parameter or more, after `count` others. Too many are reported and read all the same. -/
def parameters : Nat → Nat → Parser σ (List Name)
  | 0, _ => stuck
  | depth + 1, count => do
    if argumentLimit ≤ count then report .fewerParameters
    let param ← expect .identifier .parameterName
    match ← accept .comma with
    | none => return [param.lexeme]
    | some _ =>
      let rest ← parameters depth (count + 1)
      return param.lexeme :: rest

/-- What follows the word `var` at `start`. -/
def varDeclaration (depth : Nat) (start : Position) : Parser σ (Stmt ν) := do
  let name ← expect .identifier .variableName
  let initializer ←
    match ← accept .equal with
    | some _ => some <$> expression depth
    | none => pure none
  let _ ← expect .semicolon .semicolonAfterDeclaration
  return .varDecl (← draw start) name.lexeme initializer

def expressionStatement (depth : Nat) : Parser σ (Stmt ν) := do
  let start ← place
  let value ← expression depth
  let _ ← expect .semicolon .semicolonAfterExpression
  return .expression (← draw start) value

def printStatement (depth : Nat) (start : Position) : Parser σ (Stmt ν) := do
  let value ← expression depth
  let _ ← expect .semicolon .semicolonAfterPrinted
  return .print (← draw start) value

def returnStatement (depth : Nat) (start : Position) : Parser σ (Stmt ν) := do
  let value ← if ← check .semicolon then pure none else some <$> expression depth
  let _ ← expect .semicolon .semicolonAfterReturn
  return .returnStmt (← draw start) value

/-- The first clause of a `for` loop, with the semicolon that ends it. -/
def forInitializer (depth : Nat) : Parser σ (Option (Stmt ν)) := do
  match ← accept .semicolon with
  | some _ => return none
  | none =>
    match ← accept .varWord with
    | some word => some <$> varDeclaration depth word.position
    | none => some <$> expressionStatement depth

def forCondition (depth : Nat) : Parser σ (Expr ν) := do
  if ← check .semicolon then return .literal (← draw (← place)) (.bool true)
  else expression depth

def forIncrement (depth : Nat) : Parser σ (Option (Expr ν)) := do
  if ← check .rightParen then return none
  else some <$> expression depth

/-- The body of a loop with an increment runs the increment last. -/
def followedBy (body : Stmt ν) : Option (Expr ν) → Parser σ (Stmt ν)
  | none => return body
  | some increment => do
    let last := Stmt.expression (← redraw increment.note) increment
    return .block (← redraw body.note) [body, last]

/-- A loop whose initializer, if it has one, runs once in a scope around the whole loop. -/
def forLoop (start : Position) (initializer : Option (Stmt ν)) (condition : Expr ν)
    (increment : Option (Expr ν)) (body : Stmt ν) : Parser σ (Stmt ν) := do
  let round ← followedBy body increment
  let loop := Stmt.whileLoop (← draw start) condition round
  match initializer with
  | none => return loop
  | some first => return .block (← draw start) [first, loop]

mutual

def declaration : Nat → Parser σ (Stmt ν)
  | 0 => stuck
  | depth + 1 => do
    match ← accept .funWord with
    | some word => functionDeclaration depth word.position
    | none =>
      match ← accept .varWord with
      | some word => varDeclaration depth word.position
      | none => statement depth

/-- What follows the word `fun` at `start`. -/
def functionDeclaration : Nat → Position → Parser σ (Stmt ν)
  | 0, _ => stuck
  | depth + 1, start => do
    let name ← expect .identifier .functionName
    let _ ← expect .leftParen .parenAfterFunctionName
    let params ← if ← check .rightParen then pure [] else parameters depth 0
    let _ ← expect .rightParen .parenAfterParameters
    let _ ← expect .leftBrace .braceBeforeBody
    let body ← blockBody depth
    return .funDecl (← draw start) name.lexeme params body

def blockBody : Nat → Parser σ (List (Stmt ν))
  | 0 => stuck
  | depth + 1 => do
    if (← check .rightBrace) || (← atEnd) then
      let _ ← expect .rightBrace .braceAfterBlock
      return []
    else
      let first ← recovering (declaration depth)
      let rest ← blockBody depth
      return first.toList ++ rest

def statement : Nat → Parser σ (Stmt ν)
  | 0 => stuck
  | depth + 1 => do
    match ← accept .printWord with
    | some word => printStatement depth word.position
    | none =>
    match ← accept .leftBrace with
    | some brace =>
      let body ← blockBody depth
      return .block (← draw brace.position) body
    | none =>
    match ← accept .ifWord with
    | some word => ifStatement depth word.position
    | none =>
    match ← accept .whileWord with
    | some word => whileStatement depth word.position
    | none =>
    match ← accept .forWord with
    | some word => forStatement depth word.position
    | none =>
    match ← accept .returnWord with
    | some word => returnStatement depth word.position
    | none => expressionStatement depth

/-- What follows the word `if` at `start`. An `else` belongs to the nearest `if`. -/
def ifStatement : Nat → Position → Parser σ (Stmt ν)
  | 0, _ => stuck
  | depth + 1, start => do
    let _ ← expect .leftParen .parenAfterIf
    let condition ← expression depth
    let _ ← expect .rightParen .parenAfterIfCondition
    let thenBranch ← statement depth
    match ← accept .elseWord with
    | none => return .ifElse (← draw start) condition thenBranch none
    | some _ =>
      let elseBranch ← statement depth
      return .ifElse (← draw start) condition thenBranch (some elseBranch)

def whileStatement : Nat → Position → Parser σ (Stmt ν)
  | 0, _ => stuck
  | depth + 1, start => do
    let _ ← expect .leftParen .parenAfterWhile
    let condition ← expression depth
    let _ ← expect .rightParen .parenAfterWhileCondition
    let body ← statement depth
    return .whileLoop (← draw start) condition body

def forStatement : Nat → Position → Parser σ (Stmt ν)
  | 0, _ => stuck
  | depth + 1, start => do
    let _ ← expect .leftParen .parenAfterFor
    let initializer ← forInitializer depth
    let condition ← forCondition depth
    let _ ← expect .semicolon .semicolonAfterLoopCondition
    let increment ← forIncrement depth
    let _ ← expect .rightParen .parenAfterForClauses
    let body ← statement depth
    forLoop start initializer condition increment body

end

def program : Nat → Parser σ (Program ν)
  | 0 => stuck
  | depth + 1 => do
    if ← atEnd then return []
    else
      let first ← recovering (declaration depth)
      let rest ← program depth
      return first.toList ++ rest

end Parse

/-- What a source text holds: the statements that could be read, and every error in it. -/
structure Parsed (ν : Type) where
  program : Program ν
  errors : List SourceError

/-- A depth that suffices for so many tokens: between two tokens that it takes, a reading is never
nested deeper than sixteen steps. -/
def parseDepth (tokens : List Token) : Nat := 16 * (tokens.length + 1)

section

variable {σ ν : Type} [Supply σ Position ν]

def parseTokensWith (supply : σ) (tokens : List Token) (stop : Position) : Parsed ν × σ :=
  let read := Parse.program (parseDepth tokens) ⟨tokens, stop, [], supply⟩
  (⟨read.1.getD [], read.2.errors⟩, read.2.supply)

/-- Reads a source text. The errors of scanning come first. -/
def parseWith (supply : σ) (source : Text) : Parsed ν × σ :=
  let scanned := scan source
  let parsed := parseTokensWith supply scanned.tokens scanned.stop
  (⟨parsed.1.program, scanned.errors ++ parsed.1.errors⟩, parsed.2)

end

def parseTokens (tokens : List Token) (stop : Position) : Parsed Position :=
  (parseTokensWith () tokens stop).1

def parse (source : Text) : Parsed Position := (parseWith () source).1

/-- Reads a source text whose nodes get keys from `k` on, and gives the first key left over. -/
def parseKeyed (k : Nat) (source : Text) : Parsed Node × Nat :=
  let parsed := parseWith k source
  (⟨Program.map (fun n => ⟨n.key, n.location⟩) parsed.1.program, parsed.1.errors⟩, parsed.2)

/-- The program of a text that has no errors. -/
def Parsed.program? {ν : Type} (parsed : Parsed ν) : Except (List SourceError) (Program ν) :=
  if parsed.errors.isEmpty then .ok parsed.program else .error parsed.errors

def parse? (source : Text) : Except (List SourceError) (Program Position) :=
  (parse source).program?

def parseKeyed? (k : Nat) (source : Text) : Except (List SourceError) (Program Node) :=
  (parseKeyed k source).1.program?

end Lox
