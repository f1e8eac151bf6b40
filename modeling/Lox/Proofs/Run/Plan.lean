import Lox.Run.Evaluate

/-! A run taken apart. A task is one piece of the work of a run, and its plan says which tasks it
consists of, one after the other, and how it ends by itself in between. -/

namespace Lox

inductive Task where
  | evaluate (env : Environment) (e : Expr Node)
  | evaluateAll (env : Environment) (es : List (Expr Node))
  | call (callee : Value) (args : List Value) (location : Option Location)
  | execute (env : Environment) (stmt : Stmt Node)
  | executeAll (env : Environment) (stmts : Program Node)
  | executeLoop (env : Environment) (condition : Expr Node) (body : Stmt Node)
  | read (env : Environment) (node : Node) (x : Name)
  | write (env : Environment) (node : Node) (x : Name) (v : Value)

/-- What a task results in. -/
inductive Answer where
  | value (v : Value)
  | values (vs : List Value)
  | completion (c : Completion)
  | written

def Outcome.map {α β : Type} (f : α → β) : Outcome α → Outcome β
  | .done a s => .done (f a) s
  | .failed e s => .failed e s
  | .exhausted => .exhausted

theorem Outcome.map_eq_failed {α β : Type} {f : α → β} {o : Outcome α} {e : RuntimeError}
    {t : State} : o.map f = .failed e t ↔ o = .failed e t := by
  cases o <;> simp [map]

inductive Plan where
  | finish (o : Outcome Answer)
  /-- A task that starts in a state, and what is done with its answer. -/
  | sub (task : Task) (s : State) (next : Answer → State → Plan)

namespace Plan

/-- Carries the plan out, with the tasks it consists of left to `recur`. -/
def run (recur : Task → Eval Answer) : Plan → Outcome Answer
  | finish o => o
  | sub task s next =>
    match recur task s with
    | .done a t => (next a t).run recur
    | .failed e t => .failed e t
    | .exhausted => .exhausted

def done (a : Answer) (s : State) : Plan := finish (.done a s)

/-- The answer of the task is the answer of the plan. -/
def last (task : Task) (s : State) : Plan := sub task s done

def value (task : Task) (s : State) (next : Value → State → Plan) : Plan :=
  sub task s fun a t =>
    match a with
    | .value v => next v t
    | _ => finish .exhausted

def values (task : Task) (s : State) (next : List Value → State → Plan) : Plan :=
  sub task s fun a t =>
    match a with
    | .values vs => next vs t
    | _ => finish .exhausted

def completion (task : Task) (s : State) (next : Completion → State → Plan) : Plan :=
  sub task s fun a t =>
    match a with
    | .completion c => next c t
    | _ => finish .exhausted

end Plan

namespace Store

/-- Defines the names one after the other, as long as there are values. -/
def defineAll (env : Environment) : List Name → List Value → Store → Store
  | x :: xs, v :: vs, s => defineAll env xs vs (s.define env x v)
  | _, _, s => s

end Store

namespace State

def openFrame (env : Environment) (s : State) : State := { s with store := (s.store.child env).2 }

def define (env : Environment) (x : Name) (v : Value) (s : State) : State :=
  { s with store := s.store.define env x v }

/-- The environment of the frame that is opened next. -/
def inner (env : Environment) (s : State) : Environment := s.store.frames.size :: env

/-- The state in which the body of a function starts. -/
def enter (f : Closure) (args : List Value) (s : State) : State :=
  { s with store := ((s.store.child f.env).2).defineAll (s.inner f.env) f.params args }

/-- The function that a declaration makes. -/
def closure (x : Name) (params : List Name) (body : Program Node) (env : Environment) (s : State) :
    Closure :=
  ⟨s.nextFunction, x, params, body, env⟩

/-- The state after a function has been declared. -/
def declare (x : Name) (params : List Name) (body : Program Node) (env : Environment) (s : State) :
    State :=
  { s with nextFunction := s.nextFunction + 1 }.define env x
    (.function (s.closure x params body env))

end State

namespace Context

def planExpr (env : Environment) (s : State) : Expr Node → Plan
  | .literal _ v => .done (.value (.ofLiteral v)) s
  | .grouping _ e => .last (.evaluate env e) s
  | .reference n x => .last (.read env n x) s
  | .assign n x e => .value (.evaluate env e) s fun v t =>
    .sub (.write env n x v) t fun _ t => .done (.value v) t
  | .logical _ l op r => .value (.evaluate env l) s fun v t =>
    if op.decides v then .done (.value v) t else .last (.evaluate env r) t
  | .unary n op e => .value (.evaluate env e) s fun v t =>
    .finish ((op.apply v n.location t).map .value)
  | .binary n l op r => .value (.evaluate env l) s fun v t =>
    .value (.evaluate env r) t fun w t => .finish ((op.apply v w n.location t).map .value)
  | .call n callee args => .value (.evaluate env callee) s fun f t =>
    .values (.evaluateAll env args) t fun vs t => .last (.call f vs (some n.location)) t

def planAll (env : Environment) (s : State) : List (Expr Node) → Plan
  | [] => .done (.values []) s
  | e :: rest => .value (.evaluate env e) s fun v t =>
    .values (.evaluateAll env rest) t fun vs t => .done (.values (v :: vs)) t

def planCall (ctx : Context) (args : List Value) (location : Option Location) (s : State) :
    Value → Plan
  | .native f =>
    if args.length = f.arity then
      match ctx.host s.calls f args with
      | .value v => .done (.value v) s.counted
      | .call callee args location => .last (.call callee args location) s.counted
    else .finish (.failed ⟨.arityMismatch f.name f.arity args.length, location⟩ s)
  | .function f =>
    if args.length = f.params.length then
      .completion (.executeAll (s.inner f.env) f.body) (s.enter f args) fun c t =>
        match c with
        | .normal => .done (.value .nil) t
        | .returned v => .done (.value v) t
    else .finish (.failed ⟨.arityMismatch f.name f.params.length args.length, location⟩ s)
  | v => .finish (.failed ⟨.notCallable (v.typeName ++ " '" ++ v.text ++ "'"), location⟩ s)

def planStmt (env : Environment) (s : State) : Stmt Node → Plan
  | .expression _ e => .value (.evaluate env e) s fun _ t => .done (.completion .normal) t
  | .print _ e => .value (.evaluate env e) s fun v t =>
    .done (.completion .normal) { t with output := t.output.push v.text }
  | .varDecl _ x none => .done (.completion .normal) (s.define env x .nil)
  | .varDecl _ x (some e) => .value (.evaluate env e) s fun v t =>
    .done (.completion .normal) (t.define env x v)
  | .block _ body => .last (.executeAll (s.inner env) body) (s.openFrame env)
  | .ifElse _ c t e => .value (.evaluate env c) s fun v s =>
    if v.truthy then .last (.execute env t) s
    else
      match e with
      | some e => .last (.execute env e) s
      | none => .done (.completion .normal) s
  | .whileLoop _ c body => .last (.executeLoop env c body) s
  | .funDecl _ x params body => .done (.completion .normal) (s.declare x params body env)
  | .returnStmt _ none => .done (.completion (.returned .nil)) s
  | .returnStmt _ (some e) => .value (.evaluate env e) s fun v t =>
    .done (.completion (.returned v)) t

def planStmts (env : Environment) (s : State) : Program Node → Plan
  | [] => .done (.completion .normal) s
  | stmt :: rest => .completion (.execute env stmt) s fun c t =>
    match c with
    | .normal => .last (.executeAll env rest) t
    | .returned v => .done (.completion (.returned v)) t

def planLoop (env : Environment) (c : Expr Node) (body : Stmt Node) (s : State) : Plan :=
  .value (.evaluate env c) s fun v t =>
    if v.truthy then
      .completion (.execute env body) t fun r t =>
        match r with
        | .normal => .last (.executeLoop env c body) t
        | .returned v => .done (.completion (.returned v)) t
    else .done (.completion .normal) t

/-- The plan of a task that starts in a state. -/
def plan (ctx : Context) : Task → State → Plan
  | .evaluate env e, s => planExpr env s e
  | .evaluateAll env es, s => planAll env s es
  | .call f args location, s => ctx.planCall args location s f
  | .execute env stmt, s => planStmt env s stmt
  | .executeAll env stmts, s => planStmts env s stmts
  | .executeLoop env c body, s => planLoop env c body s
  | .read env n x, s => .finish ((ctx.read env n x s).map .value)
  | .write env n x v, s => .finish ((ctx.write env n x v s).map fun _ => .written)

/-- Carries a task out; the number bounds the work inside it. -/
def run (ctx : Context) (work : Nat) : Task → Eval Answer
  | .evaluate env e, s => (ctx.evaluate work env e s).map .value
  | .evaluateAll env es, s => (ctx.evaluateAll work env es s).map .values
  | .call f args location, s => (ctx.call work f args location s).map .value
  | .execute env stmt, s => (ctx.execute work env stmt s).map .completion
  | .executeAll env stmts, s => (ctx.executeAll work env stmts s).map .completion
  | .executeLoop env c body, s => (ctx.executeLoop work env c body s).map .completion
  | .read env n x, s => (ctx.read env n x s).map .value
  | .write env n x v, s => (ctx.write env n x v s).map fun _ => .written

end Context

section

variable {α β : Type} {recur : Task → Eval Answer} {task : Task} {s : State}

theorem Outcome.map_bind {m : Eval α} {f : α → Eval β} {g : β → Answer} {h : α → Answer}
    {next : Answer → State → Plan} (hm : recur task s = (m s).map h)
    (hf : ∀ a t, (f a t).map g = (next (h a) t).run recur) :
    ((m >>= f) s).map g = (Plan.sub task s next).run recur := by
  rw [Plan.run, hm]
  cases ho : m s with
  | done a t =>
    rw [Eval.bind_of_done ho]
    exact hf a t
  | failed e t => rw [Eval.bind_of_failed ho]; rfl
  | exhausted => rw [Eval.bind_of_exhausted ho]; rfl

theorem Plan.run_last : (Plan.last task s).run recur = recur task s := by
  rw [Plan.last, Plan.run]
  cases recur task s <;> rfl

private theorem Eval.defineAll_apply (env : Environment) (xs : List Name) (vs : List Value)
    (s : State) :
    Eval.defineAll env xs vs s = .done () { s with store := s.store.defineAll env xs vs } := by
  induction xs generalizing vs s with
  | nil => rfl
  | cons x xs ih =>
    cases vs with
    | nil => rfl
    | cons v vs => exact ih vs _

end

namespace Context

variable {ctx : Context} {work : Nat} {env : Environment} {s : State}

private theorem run_planExpr (e : Expr Node) :
    ctx.run (work + 1) (.evaluate env e) s = (planExpr env s e).run (ctx.run work) := by
  rw [run]
  cases e with
  | literal n v => rfl
  | grouping n e => rw [planExpr, Plan.run_last]; rfl
  | reference n x => rw [planExpr, Plan.run_last]; rfl
  | assign n x e =>
    refine Outcome.map_bind rfl fun v t => ?_
    exact Outcome.map_bind rfl fun _ t => rfl
  | logical n l op r =>
    refine Outcome.map_bind rfl fun v t => ?_
    dsimp only
    split
    · rfl
    · rw [Plan.run_last]; rfl
  | unary n op e => exact Outcome.map_bind rfl fun v t => rfl
  | binary n l op r =>
    refine Outcome.map_bind rfl fun v t => ?_
    exact Outcome.map_bind rfl fun w t => rfl
  | call n callee args =>
    refine Outcome.map_bind rfl fun f t => ?_
    refine Outcome.map_bind rfl fun vs t => ?_
    dsimp only
    rw [Plan.run_last]
    rfl

private theorem run_planAll (es : List (Expr Node)) :
    ctx.run (work + 1) (.evaluateAll env es) s = (planAll env s es).run (ctx.run work) := by
  rw [run]
  cases es with
  | nil => rfl
  | cons e rest =>
    refine Outcome.map_bind rfl fun v t => ?_
    exact Outcome.map_bind rfl fun vs t => rfl

/-- The body of a function, and what its end means for the caller. -/
theorem run_body (body : Program Node) :
    Outcome.map Answer.value ((do
      match ← ctx.executeAll work env body with
      | .normal => return Value.nil
      | .returned v => return v : Eval Value) s) =
    (Plan.completion (.executeAll env body) s fun c t =>
      match c with
      | .normal => .done (.value .nil) t
      | .returned v => .done (.value v) t).run (ctx.run work) := by
  refine Outcome.map_bind rfl fun c t => ?_
  cases c with
  | normal => rfl
  | returned v => rfl

private theorem run_planCall (f : Value) (args : List Value) (location : Option Location) :
    ctx.run (work + 1) (.call f args location) s =
      (ctx.planCall args location s f).run (ctx.run work) := by
  rw [run]
  cases f with
  | native f =>
    rw [planCall]
    by_cases h : args.length = f.arity
    · rw [if_pos h, call, checkArity, if_pos h]
      cases hreply : ctx.host s.calls f args with
      | value v =>
        simp [Plan.done, Plan.run, bind, Eval.bind, pure, Eval.pure, Eval.countCall, Outcome.map,
          hreply]
      | call callee args location =>
        dsimp only
        rw [Plan.run_last, run]
        simp [bind, Eval.bind, pure, Eval.pure, Eval.countCall, hreply]
    · rw [if_neg h, call, checkArity, if_neg h]
      rfl
  | function f =>
    rw [planCall]
    by_cases h : args.length = f.params.length
    · rw [if_pos h, call, checkArity, if_pos h]
      rw [← run_body]
      simp only [bind, Eval.bind, pure, Eval.pure, Eval.openFrame, Eval.defineAll_apply]
      rfl
    · rw [if_neg h, call, checkArity, if_neg h]
      rfl
  | _ => rfl

private theorem run_planStmt (stmt : Stmt Node) :
    ctx.run (work + 1) (.execute env stmt) s = (planStmt env s stmt).run (ctx.run work) := by
  rw [run]
  cases stmt with
  | expression n e => exact Outcome.map_bind rfl fun v t => rfl
  | print n e => exact Outcome.map_bind rfl fun v t => rfl
  | varDecl n x e =>
    cases e with
    | none => rfl
    | some e => exact Outcome.map_bind rfl fun v t => rfl
  | block n body => rw [planStmt, Plan.run_last]; rfl
  | ifElse n c t e =>
    refine Outcome.map_bind rfl fun v s => ?_
    dsimp only
    split
    · rw [Plan.run_last]; rfl
    · cases e with
      | none => rfl
      | some e => dsimp only; rw [Plan.run_last]; rfl
  | whileLoop n c body => rw [planStmt, Plan.run_last]; rfl
  | funDecl n x params body => rfl
  | returnStmt n e =>
    cases e with
    | none => rfl
    | some e => exact Outcome.map_bind rfl fun v t => rfl

private theorem run_planStmts (stmts : Program Node) :
    ctx.run (work + 1) (.executeAll env stmts) s = (planStmts env s stmts).run (ctx.run work) := by
  rw [run]
  cases stmts with
  | nil => rfl
  | cons stmt rest =>
    refine Outcome.map_bind rfl fun c t => ?_
    cases c with
    | normal => dsimp only; rw [Plan.run_last]; rfl
    | returned v => rfl

private theorem run_planLoop (c : Expr Node) (body : Stmt Node) :
    ctx.run (work + 1) (.executeLoop env c body) s =
      (planLoop env c body s).run (ctx.run work) := by
  rw [run, planLoop, Plan.value, Plan.run, run, executeLoop]
  cases ctx.evaluate work env c s with
  | failed e t => rfl
  | exhausted => rfl
  | done v t =>
    dsimp only [Outcome.map]
    by_cases hv : v.truthy
    · rw [if_pos hv, if_pos hv, Plan.completion, Plan.run, run]
      cases ctx.execute work env body t with
      | failed e t => rfl
      | exhausted => rfl
      | done r t =>
        cases r with
        | normal =>
          dsimp only [Outcome.map]
          rw [Plan.run_last]
          rfl
        | returned v => rfl
    · rw [if_neg hv, if_neg hv]
      rfl

/-- A task is carried out by its plan, with less work for the tasks inside it. -/
theorem run_succ (task : Task) (s : State) :
    ctx.run (work + 1) task s = (ctx.plan task s).run (ctx.run work) := by
  cases task with
  | evaluate env e => exact run_planExpr e
  | evaluateAll env es => exact run_planAll es
  | call f args location => exact run_planCall f args location
  | execute env stmt => exact run_planStmt stmt
  | executeAll env stmts => exact run_planStmts stmts
  | executeLoop env c body => exact run_planLoop c body
  | read env n x => rfl
  | write env n x v => rfl

/-- With no work at all only the tasks that consist of no others are carried out. -/
theorem run_zero (task : Task) (s : State) :
    ctx.run 0 task s = .exhausted ∨ ctx.plan task s = .finish (ctx.run 0 task s) := by
  cases task with
  | read | write => exact .inr rfl
  | _ => exact .inl rfl

/-- Running a program is the task of executing its statements in the globals. -/
theorem interpret_eq_run (program : Program Node) : ctx.interpret work program s =
    (ctx.run work (.executeAll ctx.globals program) s).map fun _ => () := by
  unfold interpret
  rw [run]
  cases ho : ctx.executeAll work ctx.globals program s with
  | done c t => rw [Eval.bind_of_done ho]; rfl
  | failed e t => rw [Eval.bind_of_failed ho]; rfl
  | exhausted => rw [Eval.bind_of_exhausted ho]; rfl

end Context

end Lox
