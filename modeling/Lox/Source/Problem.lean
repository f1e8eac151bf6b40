import Lox.Source.Token

/-! What can be wrong with the text of a program, and how it is reported. -/

namespace Lox

open Text

/-- No call passes more arguments than this, and no function has more parameters. -/
def argumentLimit : Nat := 255

/-- What the parser misses or refuses at a token. -/
inductive Expectation where
  | functionName | parenAfterFunctionName | parameterName | fewerParameters
  | parenAfterParameters | braceBeforeBody
  | variableName | semicolonAfterDeclaration
  | semicolonAfterPrinted | semicolonAfterExpression | braceAfterBlock
  | parenAfterIf | parenAfterIfCondition | parenAfterWhile | parenAfterWhileCondition
  | parenAfterFor | semicolonAfterLoopCondition | parenAfterForClauses
  | semicolonAfterReturn
  | assignmentTarget | fewerArguments | parenAfterArguments
  | expression | parenAfterExpression
  deriving DecidableEq, Repr

def Expectation.message : Expectation → Text
  | functionName => "Expect function name."
  | parenAfterFunctionName => "Expect '(' after function name."
  | parameterName => "Expect parameter name."
  | fewerParameters => "Can't have more than " ++ Text.ofNat argumentLimit ++ " parameters."
  | parenAfterParameters => "Expect ')' after parameters."
  | braceBeforeBody => "Expect '\x7b' before function body."
  | variableName => "Expect variable name."
  | semicolonAfterDeclaration => "Expect ';' after variable declaration."
  | semicolonAfterPrinted => "Expect ';' after value."
  | semicolonAfterExpression => "Expect ';' after expression."
  | braceAfterBlock => "Expect '\x7d' after block."
  | parenAfterIf => "Expect '(' after 'if'."
  | parenAfterIfCondition => "Expect ')' after if condition."
  | parenAfterWhile => "Expect '(' after 'while'."
  | parenAfterWhileCondition => "Expect ')' after condition."
  | parenAfterFor => "Expect '(' after 'for'."
  | semicolonAfterLoopCondition => "Expect ';' after loop condition."
  | parenAfterForClauses => "Expect ')' after for clauses."
  | semicolonAfterReturn => "Expect ';' after return value."
  | assignmentTarget => "Invalid assignment target."
  | fewerArguments => "Can't have more than " ++ Text.ofNat argumentLimit ++ " arguments."
  | parenAfterArguments => "Expect ')' after arguments."
  | expression => "Expect expression."
  | parenAfterExpression => "Expect ')' after expression."

inductive Problem where
  | unexpectedUnit (u : CodeUnit)
  | unterminatedString
  /-- The token that was found, or nothing at the end of the text. -/
  | unmet (found : Option Text) (expectation : Expectation)
  /-- A problem in the words of whoever reports it. -/
  | worded (message : Text)
  deriving DecidableEq, Repr

def Problem.message : Problem → Text
  | unexpectedUnit u => "Unexpected character '" ++ [u] ++ "'."
  | unterminatedString => "Unterminated string."
  | unmet (some lexeme) e => "Error at '" ++ lexeme ++ "': " ++ e.message
  | unmet none e => "Error at end: " ++ e.message
  | worded message => message

/-- A problem and the place where it shows. -/
structure SourceError where
  problem : Problem
  position : Position
  deriving DecidableEq, Repr

namespace SourceError

/-- The lines under which the errors of a source text are listed. -/
def line (e : SourceError) : Text :=
  "  Line " ++ Text.ofNat e.position.line ++ ", Col " ++ Text.ofNat e.position.column ++ ": "
    ++ e.problem.message

/-- All errors of a source text in one message. -/
def listing (errors : List SourceError) : Text :=
  "SyntaxError: " ++ counted errors.length "error" ++ "\n" ++ join [newline] (errors.map line)

end SourceError

end Lox
