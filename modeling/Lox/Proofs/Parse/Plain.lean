import Lox.Proofs.Parse.Step

/-! The steps of the parser that make nodes, when a node is to have no more than a place. Such a
place is there at no cost. -/

namespace Lox.Parse

variable (depth : Nat) (start : Position)

theorem expression_plain : (expression (depth + 1) : Parse (Expr Position)) = (do
    let target ← operation depth infixLevels
    match ← accept .equal with
    | none => return target
    | some sign =>
      let value ← expression depth
      match target with
      | .reference note name => return .assign note name value
      | _ =>
        reportAt sign .assignmentTarget
        return target) := by
  rw [expression]
  refine bind_congr fun target => bind_congr fun sign => ?_
  cases sign with
  | none => rfl
  | some sign => exact bind_congr fun value => by cases target <;> rfl

theorem operationTail_plain (level : List (TokenKind × InfixOp))
    (tighter : List (List (TokenKind × InfixOp))) (left : Expr Position) :
    (operationTail (depth + 1) level tighter left : Parse (Expr Position)) = (do
      match ← acceptWith fun kind => level.lookup kind with
      | none => return left
      | some (op, sign) =>
        let right ← operation depth tighter
        operationTail depth level tighter (op.build sign.position left right)) := by
  rw [operationTail]
  simp only [draw_plain, pure_bind] <;> rfl

theorem unary_plain : (unary (depth + 1) : Parse (Expr Position)) = (do
    match ← acceptWith fun kind => unaryOps.lookup kind with
    | some (op, sign) =>
      let operand ← unary depth
      return .unary sign.position op operand
    | none =>
      let callee ← primary depth
      callTail depth callee) := by
  rw [unary]
  simp only [draw_plain, pure_bind] <;> rfl

theorem callTail_plain (callee : Expr Position) :
    (callTail (depth + 1) callee : Parse (Expr Position)) = (do
      match ← accept .leftParen with
      | none => return callee
      | some paren =>
        let args ← if ← check .rightParen then pure [] else arguments depth 0
        let _ ← expect .rightParen .parenAfterArguments
        callTail depth (.call paren.position callee args)) := by
  rw [callTail]
  simp only [draw_plain, pure_bind] <;> rfl

theorem primary_plain : (primary (depth + 1) : Parse (Expr Position)) = (do
    match ← operandToken with
    | some e => return e
    | none =>
      match ← accept .leftParen with
      | some paren =>
        let inner ← expression depth
        let _ ← expect .rightParen .parenAfterExpression
        return .grouping paren.position inner
      | none => refuse .expression) := by
  rw [primary]
  refine bind_congr fun operand => ?_
  cases operand with
  | some e => rfl
  | none => exact bind_congr fun paren => by cases paren <;> rfl

theorem varDeclaration_plain : (varDeclaration depth start : Parse (Stmt Position)) = (do
    let name ← expect .identifier .variableName
    let initializer ←
      match ← accept .equal with
      | some _ => some <$> expression depth
      | none => pure none
    let _ ← expect .semicolon .semicolonAfterDeclaration
    return .varDecl start name.lexeme initializer) := by
  rw [varDeclaration]
  simp only [draw_plain, pure_bind] <;> rfl

theorem expressionStatement_plain : (expressionStatement depth : Parse (Stmt Position)) = (do
    let start ← place
    let value ← expression depth
    let _ ← expect .semicolon .semicolonAfterExpression
    return .expression start value) := by
  rw [expressionStatement]
  simp only [draw_plain, pure_bind]

theorem printStatement_plain : (printStatement depth start : Parse (Stmt Position)) = (do
    let value ← expression depth
    let _ ← expect .semicolon .semicolonAfterPrinted
    return .print start value) := by
  rw [printStatement]
  simp only [draw_plain, pure_bind]

theorem returnStatement_plain : (returnStatement depth start : Parse (Stmt Position)) = (do
    let value ← if ← check .semicolon then pure none else some <$> expression depth
    let _ ← expect .semicolon .semicolonAfterReturn
    return .returnStmt start value) := by
  rw [returnStatement]
  simp only [draw_plain, pure_bind]

theorem forCondition_plain : (forCondition depth : Parse (Expr Position)) = (do
    if ← check .semicolon then return .literal (← place) (.bool true)
    else expression depth) := by
  rw [forCondition]
  simp only [draw_plain, pure_bind]

theorem functionDeclaration_plain :
    (functionDeclaration (depth + 1) start : Parse (Stmt Position)) = (do
      let name ← expect .identifier .functionName
      let _ ← expect .leftParen .parenAfterFunctionName
      let params ← if ← check .rightParen then pure [] else parameters depth 0
      let _ ← expect .rightParen .parenAfterParameters
      let _ ← expect .leftBrace .braceBeforeBody
      let body ← blockBody depth
      return .funDecl start name.lexeme params body) := by
  rw [functionDeclaration]
  simp only [draw_plain, pure_bind]

theorem statement_plain : (statement (depth + 1) : Parse (Stmt Position)) = (do
    match ← accept .printWord with
    | some word => printStatement depth word.position
    | none =>
    match ← accept .leftBrace with
    | some brace => return .block brace.position (← blockBody depth)
    | none =>
    match ← accept .ifWord with
    | some word => ifStatement depth word.position
    | none =>
    match ← accept .whileWord with
    | some word => whileStatement depth word.position
    | none =>
    match ← accept .forWord with
    | some word => forStatement depth word.position
    | none =>
    match ← accept .returnWord with
    | some word => returnStatement depth word.position
    | none => expressionStatement depth) := by
  rw [statement]
  simp only [draw_plain, pure_bind] <;> rfl

theorem ifStatement_plain : (ifStatement (depth + 1) start : Parse (Stmt Position)) = (do
    let _ ← expect .leftParen .parenAfterIf
    let condition ← expression depth
    let _ ← expect .rightParen .parenAfterIfCondition
    let thenBranch ← statement depth
    match ← accept .elseWord with
    | none => return .ifElse start condition thenBranch none
    | some _ =>
      let elseBranch ← statement depth
      return .ifElse start condition thenBranch (some elseBranch)) := by
  rw [ifStatement]
  simp only [draw_plain, pure_bind] <;> rfl

theorem whileStatement_plain : (whileStatement (depth + 1) start : Parse (Stmt Position)) = (do
    let _ ← expect .leftParen .parenAfterWhile
    let condition ← expression depth
    let _ ← expect .rightParen .parenAfterWhileCondition
    let body ← statement depth
    return .whileLoop start condition body) := by
  rw [whileStatement]
  simp only [draw_plain, pure_bind]

theorem forStatement_plain : (forStatement (depth + 1) start : Parse (Stmt Position)) = (do
    let _ ← expect .leftParen .parenAfterFor
    let initializer ← forInitializer depth
    let condition ← forCondition depth
    let _ ← expect .semicolon .semicolonAfterLoopCondition
    let increment ← forIncrement depth
    let _ ← expect .rightParen .parenAfterForClauses
    let body ← statement depth
    return .forLoop start initializer condition increment body) := by
  rw [forStatement]
  simp only [forLoop_plain]

end Lox.Parse

namespace Lox

variable (tokens : List Token) (stop : Position)

theorem parseTokens_program : (parseTokens tokens stop).program =
    (Parse.program (parseDepth tokens) ⟨tokens, stop, [], ()⟩).1.getD [] := rfl

theorem parseTokens_errors : (parseTokens tokens stop).errors =
    (Parse.program (ν := Position) (parseDepth tokens) ⟨tokens, stop, [], ()⟩).2.errors := rfl

variable (source : Text)

theorem parse_eq : parse source =
    let parsed := parseTokens (scan source).tokens (scan source).stop
    ⟨parsed.program, (scan source).errors ++ parsed.errors⟩ := rfl

theorem parse_program : (parse source).program =
    (parseTokens (scan source).tokens (scan source).stop).program := rfl

theorem parse_errors : (parse source).errors =
    (scan source).errors ++ (parseTokens (scan source).tokens (scan source).stop).errors := rfl

end Lox
