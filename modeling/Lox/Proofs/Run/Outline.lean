import Lox.Proofs.Resolution.Stands
import Lox.Proofs.Run.Steps
import Lox.Proofs.Run.Visit

/-! What each task of a run does by itself, said once for all of them: how it changes the variables
between the tasks inside it, which tasks these are, and with which errors it fails. -/

namespace Lox

/-- The variables that a task can add to the frames that it finds. -/
def Task.declares : Task → Nat → Name → Prop
  | .execute env s, i, x => env.head? = some i ∧ x ∈ s.ownNames
  | .executeAll env stmts, i, x => env.head? = some i ∧ x ∈ Program.ownNames stmts
  | .executeLoop env _ body, i, x => env.head? = some i ∧ x ∈ body.ownNames
  | _, _, _ => False

/-- What a task does to the variables between the tasks inside it. -/
inductive Task.Changes (task : Task) : Store → Store → Prop where
  | nothing (s) : Changes task s s
  | opens (s env) : Changes task s (s.child env).2
  | enters (s : State) (f args) : Changes task s.store (s.enter f args).store
  | defines (s env x v) : (∀ i, env.head? = some i → task.declares i x) →
      Changes task s (s.define env x v)
  | sets (s i x v) : s.binds i x → Changes task s (s.setIn i x v)

/-- The faults that an operator can find in its operands. -/
inductive UnaryOp.Faults : UnaryOp → Fault → Prop where
  | unsupported (d) : Faults .negate (.unsupportedOperator d)

@[inherit_doc UnaryOp.Faults]
inductive BinaryOp.Faults : BinaryOp → Fault → Prop where
  | divisor {op} : op ∈ [divide, remainder] → Faults op .divisionByZero
  | unsupported {op} (d) : op ∉ [equal, notEqual] → Faults op (.unsupportedOperator d)

/-- The errors with which a task fails by itself, and not in a task inside it. -/
inductive Task.Raises : Task → RuntimeError → Prop where
  | access {task env n x} : task.access? = some (env, n, x) →
      Raises task ⟨.undefinedVariable x, some n.location⟩
  | unary {env n op e fault} : op.Faults fault →
      Raises (.evaluate env (.unary n op e)) ⟨fault, some n.location⟩
  | binary {env n l op r fault} : op.Faults fault →
      Raises (.evaluate env (.binary n l op r)) ⟨fault, some n.location⟩
  | arity (f args l name expected) :
      Raises (.call f args l) ⟨.arityMismatch name expected args.length, l⟩
  | notCallable (f args l d) : Raises (.call f args l) ⟨.notCallable d, l⟩

/-- Where the calls directly inside a task stand: at the node that is evaluated, or where a native
function says that they do. -/
def Task.CallsAt (host : Host) : Task → Option Location → Prop
  | .evaluate _ (.call n _ _), location => location = some n.location
  | .call (.native f) args _, location => ∃ calls c vs, host calls f args = .call c vs location
  | _, _ => False

/-- A task can stand directly inside another one, which has found so many frames: it declares no
more in these, and if it is a call, it stands where the other one says. -/
structure Task.Contains (host : Host) (size : Nat) (task inner : Task) : Prop where
  declares : ∀ i x, i < size → inner.declares i x → task.declares i x
  calls : ∀ f args location, inner = .call f args location → task.CallsAt host location

namespace Plan

/-- From a store on, the plan does only what its task may do by itself and with the tasks inside. -/
def Outlined (host : Host) (task : Task) : Store → Plan → Prop
  | before, finish (.done _ t) => task.Changes before t.store
  | before, finish (.failed e t) => t.store = before ∧ task.Raises e
  | _, finish .exhausted => True
  | before, sub inner s next => task.Changes before s.store ∧
    task.Contains host before.frames.size inner ∧ ∀ a t, Outlined host task t.store (next a t)

section

variable {host : Host} {task inner : Task} {before : Store} {s : State}

theorem outlined_last (h : task.Changes before s.store)
    (hinner : task.Contains host before.frames.size inner) :
    (Plan.last inner s).Outlined host task before :=
  ⟨h, hinner, fun _ t => .nothing t.store⟩

theorem outlined_value {next : Value → State → Plan} (h : task.Changes before s.store)
    (hinner : task.Contains host before.frames.size inner)
    (hnext : ∀ v t, (next v t).Outlined host task t.store) :
    (Plan.value inner s next).Outlined host task before := by
  refine ⟨h, hinner, fun a t => ?_⟩
  cases a with
  | value v => exact hnext v t
  | _ => exact trivial

theorem outlined_values {next : List Value → State → Plan} (h : task.Changes before s.store)
    (hinner : task.Contains host before.frames.size inner)
    (hnext : ∀ vs t, (next vs t).Outlined host task t.store) :
    (Plan.values inner s next).Outlined host task before := by
  refine ⟨h, hinner, fun a t => ?_⟩
  cases a with
  | values vs => exact hnext vs t
  | _ => exact trivial

theorem outlined_completion {next : Completion → State → Plan} (h : task.Changes before s.store)
    (hinner : task.Contains host before.frames.size inner)
    (hnext : ∀ c t, (next c t).Outlined host task t.store) :
    (Plan.completion inner s next).Outlined host task before := by
  refine ⟨h, hinner, fun a t => ?_⟩
  cases a with
  | completion c => exact hnext c t
  | _ => exact trivial

/-- An operator changes nothing, and fails with a fault of its own. -/
theorem outlined_operator {m : Eval Value} (hdone : ∀ v t, m s = .done v t → t = s)
    (hfailed : ∀ e t, m s = .failed e t → t = s ∧ task.Raises e) :
    (Plan.finish ((m s).map .value)).Outlined host task s.store := by
  cases ho : m s with
  | done v t =>
    cases hdone v t ho
    exact .nothing s.store
  | failed e t =>
    obtain ⟨rfl, hraises⟩ := hfailed e t ho
    exact ⟨rfl, hraises⟩
  | exhausted => exact trivial

end

end Plan

namespace Task.Contains

variable {host : Host} {size : Nat} {task : Task} {env : Environment}

theorem evaluate (e : Expr Node) : Contains host size task (.evaluate env e) :=
  ⟨fun _ _ _ => False.elim, fun _ _ _ h => by cases h⟩

theorem evaluateAll (es : List (Expr Node)) : Contains host size task (.evaluateAll env es) :=
  ⟨fun _ _ _ => False.elim, fun _ _ _ h => by cases h⟩

private theorem read (n : Node) (x : Name) : Contains host size task (.read env n x) :=
  ⟨fun _ _ _ => False.elim, fun _ _ _ h => by cases h⟩

private theorem write (n : Node) (x : Name) (v : Value) : Contains host size task
    (.write env n x v) :=
  ⟨fun _ _ _ => False.elim, fun _ _ _ h => by cases h⟩

theorem call {f : Value} {args : List Value} {location : Option Location}
    (h : task.CallsAt host location) : Contains host size task (.call f args location) :=
  ⟨fun _ _ _ => False.elim, fun _ _ _ heq => by cases heq; exact h⟩

theorem execute {stmt : Stmt Node} (h : ∀ i x, i < size →
    Task.declares (.execute env stmt) i x → task.declares i x) :
    Contains host size task (.execute env stmt) :=
  ⟨h, fun _ _ _ heq => by cases heq⟩

theorem executeAll {stmts : Program Node} (h : ∀ i x, i < size →
    Task.declares (.executeAll env stmts) i x → task.declares i x) :
    Contains host size task (.executeAll env stmts) :=
  ⟨h, fun _ _ _ heq => by cases heq⟩

theorem executeLoop {c : Expr Node} {body : Stmt Node} (h : ∀ i x, i < size →
    Task.declares (.executeLoop env c body) i x → task.declares i x) :
    Contains host size task (.executeLoop env c body) :=
  ⟨h, fun _ _ _ heq => by cases heq⟩

/-- What runs in a frame that the task opens declares nothing in those that it finds. -/
theorem inside (s : State) (stmts : Program Node) :
    Contains host s.store.frames.size task (.executeAll (s.inner env) stmts) := by
  refine executeAll fun i x hi hx => ?_
  have hsize : s.store.frames.size = i := Option.some.inj hx.1
  omega

end Task.Contains

theorem UnaryOp.apply_failed {op : UnaryOp} {v : Value} {l : Location} {s t : State}
    {e : RuntimeError} (h : op.apply v l s = .failed e t) :
    t = s ∧ ∃ fault, op.Faults fault ∧ e = ⟨fault, some l⟩ := by
  cases op with
  | not => cases h
  | negate => cases v <;> cases h <;> exact ⟨rfl, _, .unsupported _, rfl⟩

private theorem BinaryOp.onNumbers_error {op : BinaryOp} {a b : Float} {fault : Fault}
    (h : op.onNumbers a b = .error fault) : op.Faults fault := by
  cases op with
  | divide | remainder =>
    rw [onNumbers] at h
    split at h <;> cases h
    exact .divisor (by decide)
  | _ => cases h

private theorem BinaryOp.onValues_error {op : BinaryOp} {v w : Value} {fault : Fault}
    (h : op.onValues v w = .error fault) : op.Faults fault := by
  revert h
  fun_cases onValues op v w with
  | case4 => exact onNumbers_error
  | case5 =>
    rintro ⟨⟩
    refine .unsupported _ fun hmem => ?_
    simp_all
  | _ => rintro ⟨⟩

theorem BinaryOp.apply_failed {op : BinaryOp} {v w : Value} {l : Location} {s t : State}
    {e : RuntimeError} (h : op.apply v w l s = .failed e t) :
    t = s ∧ ∃ fault, op.Faults fault ∧ e = ⟨fault, some l⟩ := by
  unfold apply at h
  cases hok : op.onValues v w with
  | ok b => rw [hok] at h; cases h
  | error fault =>
    rw [hok] at h
    cases h
    exact ⟨rfl, fault, onValues_error hok, rfl⟩

namespace Context

variable {ctx : Context} {env : Environment} {host : Host} {s : State}

private theorem outlined_planExpr (e : Expr Node) :
    (planExpr env s e).Outlined host (.evaluate env e) s.store := by
  cases e with
  | literal n v => exact .nothing _
  | grouping n e => exact Plan.outlined_last (.nothing _) (.evaluate e)
  | reference n x => exact Plan.outlined_last (.nothing _) (.read n x)
  | assign n x e =>
    refine Plan.outlined_value (.nothing _) (.evaluate e) fun v t => ?_
    exact ⟨.nothing _, .write n x v, fun _ u => .nothing u.store⟩
  | logical n l op r =>
    refine Plan.outlined_value (.nothing _) (.evaluate l) fun v t => ?_
    split
    · exact .nothing _
    · exact Plan.outlined_last (.nothing _) (.evaluate r)
  | unary n op e =>
    refine Plan.outlined_value (.nothing _) (.evaluate e) fun v t => ?_
    refine Plan.outlined_operator (fun _ _ ho => (UnaryOp.apply_done ho).1) fun e u ho => ?_
    obtain ⟨hu, fault, hfault, rfl⟩ := UnaryOp.apply_failed ho
    exact ⟨hu, .unary hfault⟩
  | binary n l op r =>
    refine Plan.outlined_value (.nothing _) (.evaluate l) fun v t => ?_
    refine Plan.outlined_value (.nothing _) (.evaluate r) fun w t => ?_
    refine Plan.outlined_operator (fun _ _ ho => (BinaryOp.apply_done ho).1) fun e u ho => ?_
    obtain ⟨hu, fault, hfault, rfl⟩ := BinaryOp.apply_failed ho
    exact ⟨hu, .binary hfault⟩
  | call n c args =>
    refine Plan.outlined_value (.nothing _) (.evaluate c) fun f t => ?_
    refine Plan.outlined_values (.nothing _) (.evaluateAll args) fun vs u => ?_
    exact Plan.outlined_last (.nothing _) (.call rfl)

private theorem outlined_planAll (es : List (Expr Node)) :
    (planAll env s es).Outlined host (.evaluateAll env es) s.store := by
  cases es with
  | nil => exact .nothing _
  | cons e rest =>
    refine Plan.outlined_value (.nothing _) (.evaluate e) fun v t => ?_
    exact Plan.outlined_values (.nothing _) (.evaluateAll rest) fun vs u => .nothing _

private theorem outlined_planCall (f : Value) (args : List Value) (location : Option Location) :
    (ctx.planCall args location s f).Outlined ctx.host (.call f args location) s.store := by
  cases f with
  | native f =>
    rw [planCall]
    split
    · cases hreply : ctx.host s.calls f args with
      | value v => exact .nothing _
      | call c vs l => exact Plan.outlined_last (.nothing _) (.call ⟨s.calls, c, vs, hreply⟩)
    · exact ⟨rfl, .arity ..⟩
  | function f =>
    rw [planCall]
    split
    · refine Plan.outlined_completion (.enters s f args) (.inside s f.body) fun c t => ?_
      cases c <;> exact .nothing _
    · exact ⟨rfl, .arity ..⟩
  | _ => exact ⟨rfl, .notCallable ..⟩

private theorem outlined_planStmt (stmt : Stmt Node) :
    (planStmt env s stmt).Outlined host (.execute env stmt) s.store := by
  cases stmt with
  | expression n e | print n e =>
    exact Plan.outlined_value (.nothing _) (.evaluate e) fun v t => .nothing _
  | varDecl n x e =>
    have hdefine (t : State) (v : Value) :
        Task.Changes (.execute env (.varDecl n x e)) t.store (t.define env x v).store :=
      .defines t.store env x v fun i hi => ⟨hi, List.mem_singleton_self x⟩
    cases e with
    | none => exact hdefine s .nil
    | some e => exact Plan.outlined_value (.nothing _) (.evaluate e) fun v t => hdefine t v
  | funDecl n x params body =>
    exact .defines s.store env x _ fun i hi => ⟨hi, List.mem_singleton_self x⟩
  | block n body => exact Plan.outlined_last (.opens s.store env) (.inside s body)
  | ifElse n c t e =>
    refine Plan.outlined_value (.nothing _) (.evaluate c) fun v u => ?_
    cases e with
    | none =>
      split
      · exact Plan.outlined_last (.nothing _) (.execute fun i x _ hx => hx)
      · exact .nothing _
    | some e =>
      split
      · exact Plan.outlined_last (.nothing _)
          (.execute fun i x _ hx => ⟨hx.1, List.mem_append_left _ hx.2⟩)
      · exact Plan.outlined_last (.nothing _)
          (.execute fun i x _ hx => ⟨hx.1, List.mem_append_right _ hx.2⟩)
  | whileLoop n c body =>
    exact Plan.outlined_last (.nothing _) (.executeLoop fun i x _ hx => hx)
  | returnStmt n e =>
    cases e with
    | none => exact .nothing _
    | some e => exact Plan.outlined_value (.nothing _) (.evaluate e) fun v t => .nothing _

private theorem outlined_planStmts (stmts : Program Node) :
    (planStmts env s stmts).Outlined host (.executeAll env stmts) s.store := by
  cases stmts with
  | nil => exact .nothing _
  | cons stmt rest =>
    refine Plan.outlined_completion (.nothing _)
      (.execute fun i x _ hx => ⟨hx.1, List.mem_append_left _ hx.2⟩) fun c t => ?_
    cases c with
    | normal =>
      exact Plan.outlined_last (.nothing _)
        (.executeAll fun i x _ hx => ⟨hx.1, List.mem_append_right _ hx.2⟩)
    | returned v => exact .nothing _

private theorem outlined_planLoop (c : Expr Node) (body : Stmt Node) :
    (planLoop env c body s).Outlined host (.executeLoop env c body) s.store := by
  refine Plan.outlined_value (.nothing _) (.evaluate c) fun v t => ?_
  split
  · refine Plan.outlined_completion (.nothing _) (.execute fun i x _ hx => hx) fun r u => ?_
    cases r with
    | normal => exact Plan.outlined_last (.nothing _) (.executeLoop fun i x _ hx => hx)
    | returned v => exact .nothing _
  · exact .nothing _

/-- Every task does only what its outline says. -/
theorem outlined_plan (task : Task) (s : State) :
    (ctx.plan task s).Outlined ctx.host task s.store := by
  cases task with
  | evaluate env e => exact outlined_planExpr e
  | evaluateAll env es => exact outlined_planAll es
  | call f args location => exact outlined_planCall f args location
  | execute env stmt => exact outlined_planStmt stmt
  | executeAll env stmts => exact outlined_planStmts stmts
  | executeLoop env c body => exact outlined_planLoop c body
  | read env n x =>
    rw [plan]
    cases hi : ctx.holder? env n x s.store with
    | none =>
      rw [read_of_no_holder hi]
      exact ⟨rfl, .access rfl⟩
    | some i =>
      obtain ⟨a, -, ho⟩ := read_of_holder? hi
      rw [ho]
      exact .nothing _
  | write env n x v =>
    rw [plan]
    cases hi : ctx.holder? env n x s.store with
    | none =>
      rw [write_of_no_holder hi]
      exact ⟨rfl, .access rfl⟩
    | some i =>
      rw [write_of_holder? hi]
      exact .sets _ _ _ _ (binds_of_holder? hi)

end Context

/-- The state in which a step ends, if it has enough work to end. -/
def Outcome.state? {α : Type} : Outcome α → Option State
  | .done _ s | .failed _ s => some s
  | .exhausted => none

@[simp] theorem Outcome.state?_map {α β : Type} (f : α → β) (o : Outcome α) :
    (o.map f).state? = o.state? := by
  cases o <;> rfl

/-- A relation between the stores before and after a task that follows from what each task does by
itself and from the tasks inside it. -/
structure Task.Composed (host : Host) (R : Task → Store → Store → Prop) : Prop where
  changes : ∀ {task s t}, task.Changes s t → R task s t
  trans : ∀ {task s t u}, R task s t → R task t u → R task s u
  inner : ∀ {task inner s t u}, task.Changes s t → task.Contains host s.frames.size inner →
    R inner t u → R task s u

section

variable {R : Task → Store → Store → Prop} {task : Task}

theorem Plan.Outlined.ends {host : Host} (hR : Task.Composed host R) {recur : Task → Eval Answer}
    (hrecur : ∀ inner s t, (recur inner s).state? = some t → R inner s.store t.store)
    {plan : Plan} {before : Store} (h : plan.Outlined host task before) {t : State}
    (ho : (plan.run recur).state? = some t) : R task before t.store := by
  induction plan generalizing before with
  | finish o =>
    cases o with
    | done a u =>
      cases ho
      exact hR.changes h
    | failed e u =>
      obtain ⟨rfl, -⟩ := h
      cases ho
      exact hR.changes (.nothing _)
    | exhausted => cases ho
  | sub inner s next ih =>
    obtain ⟨hchanges, hcontains, hnext⟩ := h
    have hsub {u : State} (hu : (recur inner s).state? = some u) : R task before u.store :=
      hR.inner hchanges hcontains (hrecur inner s u hu)
    rw [run] at ho
    cases hr : recur inner s with
    | done a u =>
      rw [hr] at ho
      exact hR.trans (hsub (by rw [hr]; rfl)) (ih a u (hnext a u) ho)
    | failed e u =>
      rw [hr] at ho
      exact hsub (by rw [hr]; exact ho)
    | exhausted => rw [hr] at ho; cases ho

variable {ctx : Context} {work : Nat} {s t : State}

/-- Such a relation holds from the start of a task to its end, also if it ends with an error. -/
theorem Context.run_composed (hR : Task.Composed ctx.host R)
    (ho : (ctx.run work task s).state? = some t) : R task s.store t.store := by
  induction work generalizing task s t with
  | zero =>
    rcases run_zero task s with hnone | hplan
    · rw [hnone] at ho
      cases ho
    · -- a plan that is finished asks for no task
      let recur : Task → Eval Answer := fun _ _ => .exhausted
      have hrun : (ctx.plan task s).run recur = ctx.run 0 task s := by rw [hplan]; rfl
      rw [← hrun] at ho
      refine (ctx.outlined_plan task s).ends hR (fun _ _ _ h => ?_) ho
      cases h
  | succ work ih =>
    rw [run_succ] at ho
    exact (ctx.outlined_plan task s).ends hR (fun _ _ _ => ih) ho

/-- A plan that fails does so by itself, or in a task that it comes to. -/
theorem Plan.Outlined.failed {host : Host} {recur : Task → Eval Answer} {plan : Plan}
    {before : Store} (h : plan.Outlined host task before) {e : RuntimeError}
    (ho : plan.run recur = .failed e t) : task.Raises e ∨
      ∃ inner s, plan.Asks recur inner s ∧ recur inner s = .failed e t := by
  induction plan generalizing before with
  | finish o =>
    cases ho
    exact .inl h.2
  | sub inner s next ih =>
    rw [run] at ho
    cases hr : recur inner s with
    | exhausted => rw [hr] at ho; cases ho
    | failed e' t' =>
      rw [hr] at ho
      cases ho
      exact .inr ⟨inner, s, .now, hr⟩
    | done a u =>
      rw [hr] at ho
      rcases ih a u (h.2.2 a u) ho with hself | ⟨inner', s', hasks, hfailed⟩
      · exact .inl hself
      · exact .inr ⟨inner', s', .later hr hasks, hfailed⟩

/-- A run that fails has come to the task that raises the error. -/
theorem Context.exists_raises_of_failed {e : RuntimeError}
    (ho : ctx.run work task s = .failed e t) :
    ∃ v, ctx.Reaches ⟨work, task, s⟩ v ∧ v.task.Raises e ∧ ctx.outcome v = .failed e t := by
  induction work generalizing task s with
  | zero =>
    rcases run_zero task s with hnone | hplan
    · rw [hnone] at ho
      cases ho
    · have houtlined := ctx.outlined_plan task s
      rw [hplan, ho] at houtlined
      exact ⟨_, .refl, houtlined.2, ho⟩
  | succ work ih =>
    have hrun := ho
    rw [run_succ] at hrun
    rcases (ctx.outlined_plan task s).failed hrun with hself | ⟨inner, s', hasks, hfailed⟩
    · exact ⟨_, .refl, hself, ho⟩
    · obtain ⟨v, hreach, hv⟩ := ih hfailed
      exact ⟨v, .head (.intro hasks) hreach, hv⟩

/-- A call that a plan comes to stands where its task says. -/
theorem Plan.Outlined.callsAt {host : Host} {recur : Task → Eval Answer} {plan : Plan}
    {before : Store} (h : plan.Outlined host task before) {f : Value} {args : List Value}
    {location : Option Location} (hasks : plan.Asks recur (.call f args location) s) :
    task.CallsAt host location := by
  generalize hinner : Task.call f args location = inner at hasks
  induction hasks generalizing before with
  | now => exact h.2.1.calls f args location hinner.symm
  | later _ _ ih => exact ih (h.2.2 _ _) hinner

end

end Lox
