import Lox.Resolution.Basic
import Lox.Run.Operator

/-! Running programs by walking their trees. Every step has a number that bounds the work inside it;
with more of it a finished step ends in the same way. -/

namespace Lox

/-- What a native function does with its arguments: it answers, or it calls another value, whose
answer is then its own. -/
inductive Reply where
  | value (answer : Value)
  | call (callee : Value) (args : List Value) (location : Option Location)

/-- What the native functions do. Time goes on from one call to the next, so what they do may depend
on how many calls there have been. -/
abbrev Host := Nat → Native → List Value → Reply

/-- What the clock shows at the calls of native functions. -/
abbrev Clock := Nat → Float

def Clock.stopped (now : Float) : Clock := fun _ => now

def Host.standard (clock : Clock) : Host := fun calls f _ =>
  if f = .clock then .value (.number (clock calls)) else .value .nil

structure Context where
  globals : Environment
  table : ResolutionTable
  host : Host

/-- How a statement ends: so that the next one runs, or with a pending return. -/
inductive Completion where
  | normal
  | returned (value : Value)

namespace Context

/-- The frame that holds the variable of an access. Accesses that the table does not know are
looked up from the innermost frame outwards. -/
def holder? (ctx : Context) (env : Environment) (node : Node) (x : Name) (s : Store) : Option Nat :=
  match ctx.table[node.key]? with
  | none => s.holder? x env
  | some .global => s.holder? x ctx.globals
  | some (.atDepth depth) => s.holderAt? x env depth

def read (ctx : Context) (env : Environment) (node : Node) (x : Name) : Eval Value := do
  let found ← Eval.ask fun s => (ctx.holder? env node x s).bind fun i => (s.frame i).lookup x
  Eval.ofExcept (RuntimeError.orUndefined x (some node.location) found)

def write (ctx : Context) (env : Environment) (node : Node) (x : Name) (v : Value) :
    Eval Unit := do
  let found ← Eval.ask (ctx.holder? env node x)
  let i ← Eval.ofExcept (RuntimeError.orUndefined x (some node.location) found)
  Eval.setIn i x v

def checkArity (name : Name) (expected received : Nat) (location : Option Location) : Eval Unit :=
  if received = expected then pure ()
  else Eval.fail (.arityMismatch name expected received) location

mutual

def evaluate (ctx : Context) : Nat → Environment → Expr Node → Eval Value
  | 0, _, _ => Eval.exhausted
  | _ + 1, _, .literal _ v => pure (.ofLiteral v)
  | work + 1, env, .grouping _ e => ctx.evaluate work env e
  | _ + 1, env, .reference n x => ctx.read env n x
  | work + 1, env, .assign n x e => do
    let v ← ctx.evaluate work env e
    ctx.write env n x v
    return v
  | work + 1, env, .logical _ l op r => do
    let v ← ctx.evaluate work env l
    if op.decides v then return v else ctx.evaluate work env r
  | work + 1, env, .unary n op e => do
    let v ← ctx.evaluate work env e
    op.apply v n.location
  | work + 1, env, .binary n l op r => do
    let v ← ctx.evaluate work env l
    let w ← ctx.evaluate work env r
    op.apply v w n.location
  | work + 1, env, .call n callee args => do
    let f ← ctx.evaluate work env callee
    let vs ← ctx.evaluateAll work env args
    ctx.call work f vs (some n.location)

def evaluateAll (ctx : Context) : Nat → Environment → List (Expr Node) → Eval (List Value)
  | 0, _, _ => Eval.exhausted
  | _ + 1, _, [] => pure []
  | work + 1, env, e :: rest => do
    let v ← ctx.evaluate work env e
    let vs ← ctx.evaluateAll work env rest
    return v :: vs

/-- Calls a value. The parameters and the body of a function share one new frame, inside the
environment in which the function was declared. -/
def call (ctx : Context) : Nat → Value → List Value → Option Location → Eval Value
  | 0, _, _, _ => Eval.exhausted
  | work + 1, .native f, args, location => do
    checkArity f.name f.arity args.length location
    let calls ← Eval.countCall
    match ctx.host calls f args with
    | .value v => return v
    | .call callee args location => ctx.call work callee args location
  | work + 1, .function f, args, location => do
    checkArity f.name f.params.length args.length location
    let env ← Eval.openFrame f.env
    Eval.defineAll env f.params args
    match ← ctx.executeAll work env f.body with
    | .normal => return .nil
    | .returned v => return v
  | _ + 1, v, _, location =>
    Eval.fail (.notCallable (v.typeName ++ " '" ++ v.text ++ "'")) location

def execute (ctx : Context) : Nat → Environment → Stmt Node → Eval Completion
  | 0, _, _ => Eval.exhausted
  | work + 1, env, .expression _ e => do
    let _ ← ctx.evaluate work env e
    return .normal
  | work + 1, env, .print _ e => do
    let v ← ctx.evaluate work env e
    Eval.print v.text
    return .normal
  | _ + 1, env, .varDecl _ x none => do
    Eval.define env x .nil
    return .normal
  | work + 1, env, .varDecl _ x (some e) => do
    let v ← ctx.evaluate work env e
    Eval.define env x v
    return .normal
  | work + 1, env, .block _ body => do
    let inner ← Eval.openFrame env
    ctx.executeAll work inner body
  | work + 1, env, .ifElse _ c t e => do
    let v ← ctx.evaluate work env c
    if v.truthy then ctx.execute work env t
    else
      match e with
      | some e => ctx.execute work env e
      | none => return .normal
  | work + 1, env, .whileLoop _ c body => fun s => ctx.executeLoop work env c body s
  | _ + 1, env, .funDecl _ x params body => do
    let f ← Eval.newFunction x params body env
    Eval.define env x f
    return .normal
  | _ + 1, _, .returnStmt _ none => return .returned .nil
  | work + 1, env, .returnStmt _ (some e) => do
    let v ← ctx.evaluate work env e
    return .returned v

def executeAll (ctx : Context) : Nat → Environment → Program Node → Eval Completion
  | 0, _, _ => Eval.exhausted
  | _ + 1, _, [] => return .normal
  | work + 1, env, stmt :: rest => do
    match ← ctx.execute work env stmt with
    | .normal => ctx.executeAll work env rest
    | .returned v => return .returned v

def executeLoop (ctx : Context) : Nat → Environment → Expr Node → Stmt Node → State →
    Outcome Completion
  | 0, _, _, _, _ => .exhausted
  | work + 1, env, c, body, s =>
    match ctx.evaluate work env c s with
    | .done v s =>
      if v.truthy then
        match ctx.execute work env body s with
        | .done .normal s => ctx.executeLoop work env c body s
        | .done (.returned v) s => .done (.returned v) s
        | .failed e s => .failed e s
        | .exhausted => .exhausted
      else .done .normal s
    | .failed e s => .failed e s
    | .exhausted => .exhausted

end

/-- Runs top-level statements in the globals. A top-level return ends the run. -/
def interpret (ctx : Context) (work : Nat) (program : Program Node) : Eval Unit := do
  let _ ← ctx.executeAll work ctx.globals program
  return ()

end Context

end Lox
