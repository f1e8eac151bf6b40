import Lox.Parse.Program
import Lox.Proofs.Parse.Step

/-! The parser with an account of its calls of `declaration`. Apart from the account, its steps are
those of the parser. -/

namespace Lox.Parse

/-- A call of `declaration`, up to where parsing goes on. -/
structure Call where
  start : Cursor Unit
  /-- What has been read, unless the call gave up. -/
  read : Option (Stmt Position)
  /-- Where reading stopped. -/
  stopped : Cursor Unit
  /-- Where parsing goes on: there, or after recovery. -/
  left : Cursor Unit

/-- A step of the parser with the calls in it, outer calls before inner ones. -/
def Traced (α : Type) : Type := Cursor Unit → (Option α × Cursor Unit) × List Call

namespace Traced

variable {α β : Type}

instance : Monad Traced where
  pure a := fun c => ((some a, c), [])
  bind t f := fun c =>
    match t c with
    | ((some a, c'), calls) => ((f a c').1, calls ++ (f a c').2)
    | ((none, c'), calls) => ((none, c'), calls)

/-- A step without calls. -/
def lift (p : Parse α) : Traced α := fun c => (p c, [])

/-- The step without its account. -/
def step (t : Traced α) : Parse α := fun c => (t c).1

/-- Recovers where the step gives up, and accounts for the call. -/
def recovering (t : Traced (Stmt Position)) : Traced (Option (Stmt Position)) := fun c =>
  match t c with
  | ((some s, c'), calls) => ((some (some s), c'), ⟨c, some s, c', c'⟩ :: calls)
  | ((none, c'), calls) => ((some none, c'.resume), ⟨c, none, c', c'.resume⟩ :: calls)

-- The steps in which declarations are read, one for each of the parser; all its others are lifted.

mutual

def declaration : Nat → Traced (Stmt Position)
  | 0 => lift stuck
  | depth + 1 => do
    match ← lift (accept .funWord) with
    | some word => functionDeclaration depth word.position
    | none =>
      match ← lift (accept .varWord) with
      | some word => lift (varDeclaration depth word.position)
      | none => statement depth

def functionDeclaration : Nat → Position → Traced (Stmt Position)
  | 0, _ => lift stuck
  | depth + 1, note => do
    let name ← lift (expect .identifier .functionName)
    let _ ← lift (expect .leftParen .parenAfterFunctionName)
    let params ← if ← lift (check .rightParen) then pure [] else lift (parameters depth 0)
    let _ ← lift (expect .rightParen .parenAfterParameters)
    let _ ← lift (expect .leftBrace .braceBeforeBody)
    let body ← blockBody depth
    return .funDecl note name.lexeme params body

def blockBody : Nat → Traced (List (Stmt Position))
  | 0 => lift stuck
  | depth + 1 => do
    if (← lift (check .rightBrace)) || (← lift atEnd) then
      let _ ← lift (expect .rightBrace .braceAfterBlock)
      return []
    else
      let first ← recovering (declaration depth)
      let rest ← blockBody depth
      return first.toList ++ rest

def statement : Nat → Traced (Stmt Position)
  | 0 => lift stuck
  | depth + 1 => do
    match ← lift (accept .printWord) with
    | some word => lift (printStatement depth word.position)
    | none =>
    match ← lift (accept .leftBrace) with
    | some brace =>
      let body ← blockBody depth
      return .block brace.position body
    | none =>
    match ← lift (accept .ifWord) with
    | some word => ifStatement depth word.position
    | none =>
    match ← lift (accept .whileWord) with
    | some word => whileStatement depth word.position
    | none =>
    match ← lift (accept .forWord) with
    | some word => forStatement depth word.position
    | none =>
    match ← lift (accept .returnWord) with
    | some word => lift (returnStatement depth word.position)
    | none => lift (expressionStatement depth)

def ifStatement : Nat → Position → Traced (Stmt Position)
  | 0, _ => lift stuck
  | depth + 1, note => do
    let _ ← lift (expect .leftParen .parenAfterIf)
    let condition ← lift (expression depth)
    let _ ← lift (expect .rightParen .parenAfterIfCondition)
    let thenBranch ← statement depth
    match ← lift (accept .elseWord) with
    | none => return .ifElse note condition thenBranch none
    | some _ =>
      let elseBranch ← statement depth
      return .ifElse note condition thenBranch (some elseBranch)

def whileStatement : Nat → Position → Traced (Stmt Position)
  | 0, _ => lift stuck
  | depth + 1, note => do
    let _ ← lift (expect .leftParen .parenAfterWhile)
    let condition ← lift (expression depth)
    let _ ← lift (expect .rightParen .parenAfterWhileCondition)
    let body ← statement depth
    return .whileLoop note condition body

def forStatement : Nat → Position → Traced (Stmt Position)
  | 0, _ => lift stuck
  | depth + 1, note => do
    let _ ← lift (expect .leftParen .parenAfterFor)
    let initializer ← lift (forInitializer depth)
    let condition ← lift (forCondition depth)
    let _ ← lift (expect .semicolon .semicolonAfterLoopCondition)
    let increment ← lift (forIncrement depth)
    let _ ← lift (expect .rightParen .parenAfterForClauses)
    let body ← statement depth
    return .forLoop note initializer condition increment body

end

def program : Nat → Traced (Program Position)
  | 0 => lift stuck
  | depth + 1 => do
    if ← lift atEnd then return []
    else
      let first ← recovering (declaration depth)
      let rest ← program depth
      return first.toList ++ rest

section

variable {α β : Type}

@[simp] theorem step_pure (a : α) : (pure a : Traced α).step = pure a := rfl

@[simp] theorem step_lift (p : Parse α) : (lift p : Traced α).step = p := rfl

@[simp] theorem step_bind (t : Traced α) (f : α → Traced β) :
    (t >>= f).step = t.step >>= fun a => (f a).step := by
  funext c
  rcases h : t c with ⟨⟨_ | a, c'⟩, calls⟩ <;> simp only [step, bind, h]

@[simp] theorem step_recovering (t : Traced (Stmt Position)) :
    (recovering t).step = Parse.recovering t.step := by
  funext c
  rcases h : t c with ⟨⟨_ | a, c'⟩, calls⟩ <;> simp only [step, recovering, Parse.recovering, h]

/-- Goes on with or without a token that a step of the parser has taken. -/
theorem step_taken {p : Parse (Option α)} {f : Option α → Traced β} {g : Option α → Parse β}
    (hnone : (f none).step = g none) (hsome : ∀ a, (f (some a)).step = g (some a)) :
    (lift p >>= f).step = p >>= g := by
  rw [step_bind, step_lift]
  refine bind_congr fun taken => ?_
  cases taken with
  | none => exact hnone
  | some a => exact hsome a

end

/-- The steps of a depth are those of the parser. -/
structure StepsPrograms (depth : Nat) : Prop where
  declaration : (declaration depth).step = Parse.declaration depth
  functionDeclaration : ∀ note,
    (functionDeclaration depth note).step = Parse.functionDeclaration depth note
  blockBody : (blockBody depth).step = Parse.blockBody depth
  statement : (statement depth).step = Parse.statement depth
  ifStatement : ∀ note, (ifStatement depth note).step = Parse.ifStatement depth note
  whileStatement : ∀ note, (whileStatement depth note).step = Parse.whileStatement depth note
  forStatement : ∀ note, (forStatement depth note).step = Parse.forStatement depth note

private theorem step_statement {depth : Nat} (ih : StepsPrograms depth) :
    (statement (depth + 1)).step = Parse.statement (depth + 1) := by
  rw [statement, Parse.statement]
  refine step_taken ?_ fun word => rfl
  refine step_taken ?_ fun brace => by simp [ih.blockBody]
  refine step_taken ?_ fun word => ih.ifStatement word.position
  refine step_taken ?_ fun word => ih.whileStatement word.position
  refine step_taken ?_ fun word => ih.forStatement word.position
  exact step_taken rfl fun word => rfl

theorem stepsPrograms (depth : Nat) : StepsPrograms depth := by
  induction depth with
  | zero => constructor <;> intros <;> rfl
  | succ depth ih =>
    constructor
    · rw [declaration, Parse.declaration]
      exact step_taken (step_taken ih.statement fun word => rfl) fun word =>
        ih.functionDeclaration word.position
    · intro note
      rw [functionDeclaration, Parse.functionDeclaration]
      simp only [step_bind, step_lift, step_pure, ih.blockBody, apply_ite, draw_plain, pure_bind]
    · rw [blockBody, Parse.blockBody]
      simp only [step_bind, step_lift, step_pure, step_recovering, ih.blockBody, ih.declaration,
        apply_ite]
    · exact step_statement ih
    · intro note
      rw [ifStatement, Parse.ifStatement]
      simp only [step_bind, step_lift, ih.statement]
      refine bind_congr fun _ => bind_congr fun condition => bind_congr fun _ =>
        bind_congr fun thenBranch => bind_congr fun other => ?_
      cases other with
      | none => rfl
      | some _ => simp only [step_bind, step_pure, ih.statement, draw_plain, pure_bind]
    · intro note
      rw [whileStatement, Parse.whileStatement]
      simp only [step_bind, step_lift, step_pure, ih.statement, draw_plain, pure_bind]
    · intro note
      rw [forStatement, Parse.forStatement]
      simp only [step_bind, step_lift, step_pure, ih.statement, forLoop_plain]

theorem step_program (depth : Nat) : (program depth).step = Parse.program depth := by
  induction depth with
  | zero => rfl
  | succ depth ih =>
    rw [program, Parse.program]
    simp only [step_bind, step_lift, step_pure, step_recovering, ih,
      (stepsPrograms depth).declaration, apply_ite]

end Traced

end Lox.Parse
