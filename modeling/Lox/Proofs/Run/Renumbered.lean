import Lox.Proofs.Resolution.Parsed
import Lox.Proofs.Run.Endings
import Lox.Proofs.Run.Renumbering

/-! Runs of the same code with dynamic lookup, in environments of which the second one has further
empty frames. Both end in the same way, or neither ends. -/

namespace Lox

namespace Renumbering

/-- The statements can run beside each other in the two environments. Where the innermost frames do
not correspond, they declare nothing. -/
structure Admits (w : Renumbering) (env env' : Environment) (p : Program Node) : Prop where
  alike : w.EnvAlike env env'
  declared : w.Fronted env env' ∨ ∀ s ∈ p, s.Plain

inductive TaskAlike (w : Renumbering) : Task → Task → Prop where
  | evaluate {env env' e} : w.EnvAlike env env' →
      TaskAlike w (.evaluate env e) (.evaluate env' e)
  | evaluateAll {env env' es} : w.EnvAlike env env' →
      TaskAlike w (.evaluateAll env es) (.evaluateAll env' es)
  | call {f f' args args' l} : w.ValueAlike f f' → List.Forall₂ w.ValueAlike args args' →
      TaskAlike w (.call f args l) (.call f' args' l)
  | execute {env env' stmt} : w.Admits env env' [stmt] →
      TaskAlike w (.execute env stmt) (.execute env' stmt)
  | executeAll {env env' p} : w.Admits env env' p →
      TaskAlike w (.executeAll env p) (.executeAll env' p)
  | executeLoop {env env' c body} : w.Admits env env' [body] →
      TaskAlike w (.executeLoop env c body) (.executeLoop env' c body)
  | read {env env' n x} : w.EnvAlike env env' → TaskAlike w (.read env n x) (.read env' n x)
  | write {env env' n x v v'} : w.EnvAlike env env' → w.ValueAlike v v' →
      TaskAlike w (.write env n x v) (.write env' n x v')

inductive CompletionAlike (w : Renumbering) : Completion → Completion → Prop where
  | normal : CompletionAlike w .normal .normal
  | returned {v v'} : w.ValueAlike v v' → CompletionAlike w (.returned v) (.returned v')

inductive AnswerAlike (w : Renumbering) : Answer → Answer → Prop where
  | value {v v'} : w.ValueAlike v v' → AnswerAlike w (.value v) (.value v')
  | values {vs vs'} : List.Forall₂ w.ValueAlike vs vs' → AnswerAlike w (.values vs) (.values vs')
  | completion {c c'} : w.CompletionAlike c c' → AnswerAlike w (.completion c) (.completion c')
  | written : AnswerAlike w .written .written

def simulation : Simulation Renumbering where
  tasks w task s task' s' := w.TaskAlike task task' ∧ w.StateAlike s s'
  answers w a t a' t' := w.AnswerAlike a a' ∧ w.StateAlike t t'
  failures w e t e' t' := e = e' ∧ w.StateAlike t t'

variable {w w' : Renumbering} {s s' t t' : State} {task task' : Task} {env env' : Environment}

section Admits

variable {p rest : Program Node} {stmt : Stmt Node}

theorem Fronted.admits (h : w.Fronted env env') (p : Program Node) : w.Admits env env' p :=
  ⟨h.envAlike, .inl h⟩

theorem EnvAlike.admits (h : w.EnvAlike env env') (hplain : stmt.Plain) :
    w.Admits env env' [stmt] :=
  ⟨h, .inr (List.forall_mem_singleton.mpr hplain)⟩

theorem Admits.mono (h : w.Admits env env' p) (hw : w ≤ w') : w'.Admits env env' p :=
  ⟨h.alike.mono hw, h.declared.imp_left (·.mono hw)⟩

theorem Admits.of_plain (h : w.Admits env env' p) {q : Program Node}
    (hq : (∀ s ∈ p, s.Plain) → ∀ s ∈ q, s.Plain) : w.Admits env env' q :=
  ⟨h.alike, h.declared.imp_right hq⟩

private theorem Admits.head (h : w.Admits env env' (stmt :: rest)) : w.Admits env env' [stmt] :=
  h.of_plain fun hp => List.forall_mem_singleton.mpr (hp stmt List.mem_cons_self)

private theorem Admits.tail (h : w.Admits env env' (stmt :: rest)) : w.Admits env env' rest :=
  h.of_plain fun hp s hs => hp s (List.mem_cons_of_mem stmt hs)

private theorem Admits.thenBranch {n : Node} {c : Expr Node} {t : Stmt Node}
    {e : Option (Stmt Node)} (h : w.Admits env env' [.ifElse n c t e]) : w.Admits env env' [t] := by
  refine h.of_plain fun hp => List.forall_mem_singleton.mpr ?_
  have hscoped := (hp _ List.mem_cons_self).2
  cases e with
  | none => exact hscoped
  | some e => exact hscoped.1

private theorem Admits.elseBranch {n : Node} {c : Expr Node} {t e : Stmt Node}
    (h : w.Admits env env' [.ifElse n c t (some e)]) : w.Admits env env' [e] :=
  h.of_plain fun hp => List.forall_mem_singleton.mpr (hp _ List.mem_cons_self).2.2

private theorem Admits.loopBody {n : Node} {c : Expr Node} {body : Stmt Node}
    (h : w.Admits env env' [.whileLoop n c body]) : w.Admits env env' [body] :=
  h.of_plain fun hp => List.forall_mem_singleton.mpr (hp _ List.mem_cons_self).2

/-- What declares something stands where the innermost frames correspond. -/
theorem Admits.fronted (h : w.Admits env env' [stmt]) (hstmt : stmt.declared? ≠ none) :
    w.Fronted env env' :=
  h.declared.resolve_right fun hp => hstmt (hp stmt List.mem_cons_self).1

end Admits

section

variable {next next' : Value → State → Plan} {nexts nexts' : List Value → State → Plan}
  {after after' : Completion → State → Plan}

theorem plans_done {a a' : Answer} (ha : w.AnswerAlike a a') (hs : w.StateAlike s s') :
    simulation.Plans w (.done a s) (.done a' s') :=
  .done ⟨ha, hs⟩

theorem plans_failed (e : RuntimeError) (hs : w.StateAlike s s') :
    simulation.Plans w (.finish (.failed e s)) (.finish (.failed e s')) :=
  .failed ⟨rfl, hs⟩

theorem plans_last (hw : w ≤ w') (htask : w'.TaskAlike task task') (hs : w'.StateAlike s s') :
    simulation.Plans w (.last task s) (.last task' s') :=
  .sub hw ⟨htask, hs⟩ fun _ _ _ _ _ _ ha => .done ha

theorem plans_value (htask : w.TaskAlike task task') (hs : w.StateAlike s s')
    (hnext : ∀ w' v v' t t', w ≤ w' → w'.ValueAlike v v' → w'.StateAlike t t' →
      simulation.Plans w' (next v t) (next' v' t')) :
    simulation.Plans w (.value task s next) (.value task' s' next') := by
  refine .sub (le_refl w) ⟨htask, hs⟩ fun w' a t a' t' hw ⟨ha, ht⟩ => ?_
  cases ha with
  | value hv => exact hnext w' _ _ t t' hw hv ht
  | _ => exact .exhausted

theorem plans_values (htask : w.TaskAlike task task') (hs : w.StateAlike s s')
    (hnext : ∀ w' vs vs' t t', w ≤ w' → List.Forall₂ w'.ValueAlike vs vs' →
      w'.StateAlike t t' → simulation.Plans w' (nexts vs t) (nexts' vs' t')) :
    simulation.Plans w (.values task s nexts) (.values task' s' nexts') := by
  refine .sub (le_refl w) ⟨htask, hs⟩ fun w' a t a' t' hw ⟨ha, ht⟩ => ?_
  cases ha with
  | values hvs => exact hnext w' _ _ t t' hw hvs ht
  | _ => exact .exhausted

theorem plans_completion (hw : w ≤ w') (htask : w'.TaskAlike task task')
    (hs : w'.StateAlike s s')
    (hafter : ∀ w'' c c' t t', w' ≤ w'' → w''.CompletionAlike c c' → w''.StateAlike t t' →
      simulation.Plans w'' (after c t) (after' c' t')) :
    simulation.Plans w (.completion task s after) (.completion task' s' after') := by
  refine .sub hw ⟨htask, hs⟩ fun w'' a t a' t' hw'' ⟨ha, ht⟩ => ?_
  cases ha with
  | completion hc => exact hafter w'' _ _ t t' hw'' hc ht
  | _ => exact .exhausted

private theorem plans_operator {m : Eval Value} (hs : w.StateAlike s s')
    (hm : (∃ v, v.callable = false ∧ ∀ t, m t = .done v t) ∨ ∃ e, ∀ t, m t = .failed e t) :
    simulation.Plans w (.finish ((m s).map .value)) (.finish ((m s').map .value)) := by
  rcases hm with ⟨v, hv, hm⟩ | ⟨e, hm⟩
  · rw [hm, hm]
    exact plans_done (.value (.of_not_callable hv)) hs
  · rw [hm, hm]
    exact plans_failed e hs

end

private theorem plans_planExpr (e : Expr Node) (hs : w.StateAlike s s')
    (henv : w.EnvAlike env env') :
    simulation.Plans w (Context.planExpr env s e) (Context.planExpr env' s' e) := by
  cases e with
  | literal n l =>
    refine plans_done (.value (.of_not_callable ?_)) hs
    cases l <;> rfl
  | grouping n e => exact plans_last (le_refl w) (.evaluate henv) hs
  | reference n x => exact plans_last (le_refl w) (.read henv) hs
  | assign n x e =>
    refine plans_value (.evaluate henv) hs fun w₁ v v' t t' hw hv ht => ?_
    refine .sub (le_refl w₁) ⟨.write (henv.mono hw) hv, ht⟩ fun w₂ a u a' u' hw₂ ⟨_, hu⟩ => ?_
    exact plans_done (.value (ValueAlike.mono hv hw₂)) hu
  | logical n l op r =>
    refine plans_value (.evaluate henv) hs fun w₁ v v' t t' hw hv ht => ?_
    have hdecides : op.decides v = op.decides v' := by
      cases op <;> simp only [LogicalOp.decides, hv.truthy_eq]
    rw [hdecides]
    split
    · exact plans_done (.value hv) ht
    · exact plans_last (le_refl w₁) (.evaluate (henv.mono hw)) ht
  | unary n op e =>
    refine plans_value (.evaluate henv) hs fun w₁ v v' t t' hw hv ht => ?_
    rw [op.apply_rel hv]
    exact plans_operator ht (op.apply_cases v' _)
  | binary n l op r =>
    refine plans_value (.evaluate henv) hs fun w₁ v v' t t' hw hv ht => ?_
    refine plans_value (.evaluate (henv.mono hw)) ht fun w₂ a a' u u' hw₂ ha hu => ?_
    rw [op.apply_rel ClosureAlike.resembles_of (ValueAlike.mono hv hw₂) ha]
    exact plans_operator hu (op.apply_cases v' a' _)
  | call n c args =>
    refine plans_value (.evaluate henv) hs fun w₁ f f' t t' hw hf ht => ?_
    refine plans_values (.evaluateAll (henv.mono hw)) ht fun w₂ vs vs' u u' hw₂ hvs hu => ?_
    exact plans_last (le_refl w₂) (.call (ValueAlike.mono hf hw₂) hvs) hu

private theorem plans_planAll (es : List (Expr Node)) (hs : w.StateAlike s s')
    (henv : w.EnvAlike env env') :
    simulation.Plans w (Context.planAll env s es) (Context.planAll env' s' es) := by
  cases es with
  | nil => exact plans_done (.values .nil) hs
  | cons e rest =>
    refine plans_value (.evaluate henv) hs fun w₁ v v' t t' hw hv ht => ?_
    refine plans_values (.evaluateAll (henv.mono hw)) ht fun w₂ vs vs' u u' hw₂ hvs hu => ?_
    exact plans_done (.values (.cons (ValueAlike.mono hv hw₂) hvs)) hu

private theorem plans_planStmt {stmt : Stmt Node} (hs : w.StateAlike s s')
    (henv : w.Admits env env' [stmt]) :
    simulation.Plans w (Context.planStmt env s stmt) (Context.planStmt env' s' stmt) := by
  cases stmt with
  | expression n e =>
    exact plans_value (.evaluate henv.alike) hs fun w₁ v v' t t' hw hv ht =>
      plans_done (.completion .normal) ht
  | print n e =>
    refine plans_value (.evaluate henv.alike) hs fun w₁ v v' t t' hw hv ht => ?_
    rw [hv.text_eq ClosureAlike.resembles_of]
    exact plans_done (.completion .normal) (ht.print _)
  | varDecl n x e =>
    have hfronted := henv.fronted (Option.some_ne_none x)
    cases e with
    | none =>
      exact plans_done (.completion .normal) (hs.define hfronted (.of_not_callable rfl) x)
    | some e =>
      refine plans_value (.evaluate henv.alike) hs fun w₁ v v' t t' hw hv ht => ?_
      exact plans_done (.completion .normal) (ht.define (hfronted.mono hw) hv x)
  | block n body =>
    exact plans_last (w.le_openFrame _) (.executeAll ((hs.inner henv.alike).admits body))
      (hs.openFrame env env')
  | ifElse n c t e =>
    refine plans_value (.evaluate henv.alike) hs fun w₁ v v' u u' hw hv hu => ?_
    rw [hv.truthy_eq]
    split
    · exact plans_last (le_refl w₁) (.execute (henv.thenBranch.mono hw)) hu
    · cases e with
      | none => exact plans_done (.completion .normal) hu
      | some e => exact plans_last (le_refl w₁) (.execute (henv.elseBranch.mono hw)) hu
  | whileLoop n c body => exact plans_last (le_refl w) (.executeLoop henv.loopBody) hs
  | funDecl n x params body =>
    have hfronted := henv.fronted (Option.some_ne_none x)
    exact plans_done (.completion .normal) (hs.declare hfronted x params body)
  | returnStmt n e =>
    cases e with
    | none => exact plans_done (.completion (.returned (.of_not_callable rfl))) hs
    | some e =>
      refine plans_value (.evaluate henv.alike) hs fun w₁ v v' t t' hw hv ht => ?_
      exact plans_done (.completion (.returned hv)) ht

private theorem plans_planStmts {p : Program Node} (hs : w.StateAlike s s')
    (henv : w.Admits env env' p) :
    simulation.Plans w (Context.planStmts env s p) (Context.planStmts env' s' p) := by
  cases p with
  | nil => exact plans_done (.completion .normal) hs
  | cons stmt rest =>
    refine plans_completion (le_refl w) (.execute henv.head) hs fun w₁ c c' t t' hw hc ht => ?_
    cases hc with
    | normal => exact plans_last (le_refl w₁) (.executeAll (henv.tail.mono hw)) ht
    | returned hv => exact plans_done (.completion (.returned hv)) ht

private theorem plans_planLoop (c : Expr Node) {body : Stmt Node} (hs : w.StateAlike s s')
    (henv : w.Admits env env' [body]) :
    simulation.Plans w (Context.planLoop env c body s) (Context.planLoop env' c body s') := by
  refine plans_value (.evaluate henv.alike) hs fun w₁ v v' t t' hw hv ht => ?_
  rw [hv.truthy_eq]
  split
  · refine plans_completion (le_refl w₁) (.execute (henv.mono hw)) ht
      fun w₂ c c' u u' hw₂ hc hu => ?_
    cases hc with
    | normal => exact plans_last (le_refl w₂) (.executeLoop (henv.mono (le_trans hw hw₂))) hu
    | returned ha => exact plans_done (.completion (.returned ha)) hu
  · exact plans_done (.completion .normal) ht

private theorem rel_of_outcomes {o o' : Outcome Answer} (h : simulation.Outcomes w o o') :
    Outcome.Rel w.AnswerAlike w.StateAlike o o' := by
  cases o <;> cases o' <;> cases h
  · exact .done ‹_› ‹_›
  · rename_i heq hs
    cases heq
    exact .failed _ hs

section

variable {ctx : Context}

private theorem plans_planCall (hhost : ctx.host.Blind) {f f' : Value} {args args' : List Value}
    (hs : w.StateAlike s s') (hf : w.ValueAlike f f')
    (hargs : List.Forall₂ w.ValueAlike args args') (l : Option Location) :
    simulation.Plans w (ctx.planCall args l s f) (ctx.planCall args' l s' f') := by
  have hlength := hargs.length_eq
  cases hf with
  | same hplain =>
    cases f with
    | function c => exact absurd rfl (hplain c)
    | native f =>
      rw [Context.planCall, Context.planCall, hlength]
      split
      · have hreply := hhost w.ClosureAlike ClosureAlike.resembles_of s.calls f args args' hargs
        rw [← hs.calls]
        generalize ctx.host s.calls f args = reply at hreply
        generalize ctx.host s.calls f args' = reply' at hreply
        cases hreply with
        | value hv => exact plans_done (.value hv) hs.counted
        | call hf hargs => exact plans_last (le_refl w) (.call hf hargs) hs.counted
      · exact plans_failed _ hs
    | _ => exact plans_failed _ hs
  | @function c c' hc =>
    rw [Context.planCall, Context.planCall, hlength, hc.params, hc.name]
    split
    · refine plans_completion (w.le_openFrame _) ?_ (hs.enter hc hargs)
        fun w₁ c c' t t' _ hc ht => ?_
      · rw [← hc.body]
        exact .executeAll ((hs.inner hc.env).admits c.body)
      · cases hc with
        | normal => exact plans_done (.value (.of_not_callable rfl)) ht
        | returned hv => exact plans_done (.value hv) ht
    · exact plans_failed _ hs

variable (htable : ctx.table = ∅)

include htable

theorem holder?_of_no_table (env : Environment) (n : Node) (x : Name) (s : Store) :
    ctx.holder? env n x s = s.holder? x env := by
  unfold Context.holder?
  rw [htable, Std.TreeMap.getElem?_emptyc]

private theorem plans_read (n : Node) (x : Name) (hs : w.StateAlike s s')
    (henv : w.EnvAlike env env') :
    simulation.Plans w (ctx.plan (.read env n x) s) (ctx.plan (.read env' n x) s') := by
  have hholder := hs.holder?_alike henv x
  rw [← holder?_of_no_table htable env n, ← holder?_of_no_table htable env' n] at hholder
  rw [Context.plan, Context.plan]
  generalize hi : ctx.holder? env n x s.store = i at hholder
  generalize hj : ctx.holder? env' n x s'.store = j at hholder
  cases hholder with
  | none =>
    rw [Context.read_of_no_holder hi, Context.read_of_no_holder hj]
    exact plans_failed _ hs
  | some hij =>
    obtain ⟨v, hv, hread⟩ := Context.read_of_holder? hi
    obtain ⟨v', hv', hread'⟩ := Context.read_of_holder? hj
    have hlookup := (hs.frames _ _ hij).lookup x
    rw [hv, hv'] at hlookup
    rw [hread, hread']
    cases hlookup with
    | some hvalue => exact plans_done (.value hvalue) hs

private theorem plans_write (n : Node) (x : Name) {v v' : Value} (hs : w.StateAlike s s')
    (henv : w.EnvAlike env env') (hv : w.ValueAlike v v') :
    simulation.Plans w (ctx.plan (.write env n x v) s) (ctx.plan (.write env' n x v') s') := by
  have hholder := hs.holder?_alike henv x
  rw [← holder?_of_no_table htable env n, ← holder?_of_no_table htable env' n] at hholder
  rw [Context.plan, Context.plan]
  generalize hi : ctx.holder? env n x s.store = i at hholder
  generalize hj : ctx.holder? env' n x s'.store = j at hholder
  cases hholder with
  | none =>
    rw [Context.write_of_no_holder hi, Context.write_of_no_holder hj]
    exact plans_failed _ hs
  | some hij =>
    rw [Context.write_of_holder? hi, Context.write_of_holder? hj]
    exact plans_done .written (hs.setIn hij hv x)

private theorem matches_simulation (hhost : ctx.host.Blind) : simulation.Matches ctx ctx := by
  rintro w task s task' s' ⟨htask, hs⟩
  refine ⟨task, s, task', s', .refl, .refl, ?_⟩
  cases htask with
  | evaluate henv => exact plans_planExpr _ hs henv
  | evaluateAll henv => exact plans_planAll _ hs henv
  | call hf hargs => exact plans_planCall hhost hs hf hargs _
  | execute henv => exact plans_planStmt hs henv
  | executeAll henv => exact plans_planStmts hs henv
  | executeLoop henv => exact plans_planLoop _ hs henv
  | read henv => exact plans_read htable _ _ hs henv
  | write henv hv => exact plans_write htable _ _ hs henv hv

/-- Tasks that correspond end alike. -/
theorem run_alike (hhost : ctx.host.Blind) (htask : w.TaskAlike task task')
    (hs : w.StateAlike s s') : EndAlike StateAlike AnswerAlike w
      (fun work => ctx.run work task s) (fun work => ctx.run work task' s') where
  steady := ctx.steady_run task s
  steady' := ctx.steady_run task' s'
  there := by
    rintro _ ⟨hne, work, rfl⟩
    obtain ⟨o', w', hw, ho', hrel⟩ :=
      (matches_simulation htable hhost).follows work w task s task' s' ⟨htask, hs⟩ hne
    exact ⟨o', w', hw, ho', rel_of_outcomes hrel⟩
  back := by
    rintro _ ⟨hne, work, rfl⟩
    obtain ⟨o, w', hw, ho, hrel⟩ :=
      (matches_simulation htable hhost).flip.follows work w task' s' task s ⟨htask, hs⟩ hne
    exact ⟨o, w', hw, ho, (rel_of_outcomes (Simulation.outcomes_flip.mp hrel)).flip⟩

theorem evaluate_alike (hhost : ctx.host.Blind) (henv : w.EnvAlike env env')
    (hs : w.StateAlike s s') (e : Expr Node) : EndAlike StateAlike ValueAlike w
      (fun work => ctx.evaluate work env e s) (fun work => ctx.evaluate work env' e s') := by
  have halike := run_alike htable hhost (.evaluate (e := e) henv) hs
  refine (halike.of_map (fun _ _ => Answer.value.inj) fun _ _ => Answer.value.inj).imp
    fun w v v' ha => ?_
  cases ha with
  | value hv => exact hv

theorem execute_alike (hhost : ctx.host.Blind) {stmt : Stmt Node} (henv : w.Admits env env' [stmt])
    (hs : w.StateAlike s s') : EndAlike StateAlike CompletionAlike w
      (fun work => ctx.execute work env stmt s) (fun work => ctx.execute work env' stmt s') := by
  have halike := run_alike htable hhost (.execute henv) hs
  refine (halike.of_map (fun _ _ => Answer.completion.inj) fun _ _ => Answer.completion.inj).imp
    fun w c c' ha => ?_
  cases ha with
  | completion hc => exact hc

end

end Renumbering

end Lox
