import Lox.Proofs.Resolution.Parsed
import Lox.Proofs.Run.Alike
import Lox.Proofs.Run.Layers
import Lox.Proofs.Run.Simulation

/-! A declaration that is added to a block or function body behind all uses of its name changes
nothing that can be seen of a resolved run: the accesses that stand before it keep finding their
variable in the same frame, also when they are carried out after it. -/

namespace Lox

namespace Shading

variable (g : Shading)

inductive TaskAlike (w : Shades) : Task → Task → Prop where
  | evaluate {shades env e e'} : w.Covers shades env → g.ExprAlike shades e e' →
      TaskAlike w (.evaluate env e) (.evaluate env e')
  | evaluateAll {shades env es es'} : w.Covers shades env →
      List.Forall₂ (g.ExprAlike shades) es es' →
      TaskAlike w (.evaluateAll env es) (.evaluateAll env es')
  | call {f f' args args' l} : g.ValueAlike w f f' → List.Forall₂ (g.ValueAlike w) args args' →
      TaskAlike w (.call f args l) (.call f' args' l)
  | execute {shades env s s'} : w.Covers shades env → g.StmtAlike shades s s' →
      TaskAlike w (.execute env s) (.execute env s')
  | executeAll {shades env p p'} : w.Covers shades env → g.ProgramAlike shades p p' →
      TaskAlike w (.executeAll env p) (.executeAll env p')
  | executeLoop {shades env c c' body body'} : w.Covers shades env → g.ExprAlike shades c c' →
      g.StmtAlike shades body body' →
      TaskAlike w (.executeLoop env c body) (.executeLoop env c' body')
  | read {shades env n n' x} : w.Covers shades env → g.Access shades x n n' →
      TaskAlike w (.read env n x) (.read env n' x)
  | write {shades env n n' x v v'} : w.Covers shades env → g.Access shades x n n' →
      g.ValueAlike w v v' → TaskAlike w (.write env n x v) (.write env n' x v')

inductive AnswerAlike (w : Shades) : Answer → Answer → Prop where
  | value {v v'} : g.ValueAlike w v v' → AnswerAlike w (.value v) (.value v')
  | values {vs vs'} : List.Forall₂ (g.ValueAlike w) vs vs' →
      AnswerAlike w (.values vs) (.values vs')
  | normal : AnswerAlike w (.completion .normal) (.completion .normal)
  | returned {v v'} : g.ValueAlike w v v' →
      AnswerAlike w (.completion (.returned v)) (.completion (.returned v'))
  | written : AnswerAlike w .written .written

/-- The two runs, with one set of globals. -/
def simulation (globals : Environment) : Simulation Shades where
  tasks w task s task' s' := g.TaskAlike w task task' ∧ g.StateAlike globals w s s'
  answers w a t a' t' := g.AnswerAlike w a a' ∧ g.StateAlike globals w t t'
  failures w e t e' t' := e = e' ∧ g.StateAlike globals w t t'

variable {g} {globals : Environment} {w w' : Shades} {s s' t t' : State} {task task' : Task}
  {env : Environment} {shades : List Bool}

section

variable {next next' : Value → State → Plan} {nexts nexts' : List Value → State → Plan}
  {after after' : Completion → State → Plan}

theorem plans_done {a a' : Answer} (ha : g.AnswerAlike w a a') (hs : g.StateAlike globals w s s') :
    (g.simulation globals).Plans w (.done a s) (.done a' s') :=
  .done ⟨ha, hs⟩

theorem plans_failed (e : RuntimeError) (hs : g.StateAlike globals w s s') :
    (g.simulation globals).Plans w (.finish (.failed e s)) (.finish (.failed e s')) :=
  .failed ⟨rfl, hs⟩

theorem plans_last (hw : w ≤ w') (htask : g.TaskAlike w' task task')
    (hs : g.StateAlike globals w' s s') :
    (g.simulation globals).Plans w (.last task s) (.last task' s') :=
  .sub hw ⟨htask, hs⟩ fun _ _ _ _ _ _ ha => .done ha

theorem plans_value (htask : g.TaskAlike w task task') (hs : g.StateAlike globals w s s')
    (hnext : ∀ w' v v' t t', w ≤ w' → g.ValueAlike w' v v' → g.StateAlike globals w' t t' →
      (g.simulation globals).Plans w' (next v t) (next' v' t')) :
    (g.simulation globals).Plans w (.value task s next) (.value task' s' next') := by
  refine .sub (le_refl w) ⟨htask, hs⟩ fun w' a t a' t' hw ⟨ha, ht⟩ => ?_
  cases ha with
  | value hv => exact hnext w' _ _ t t' hw hv ht
  | _ => exact .exhausted

theorem plans_values (htask : g.TaskAlike w task task') (hs : g.StateAlike globals w s s')
    (hnext : ∀ w' vs vs' t t', w ≤ w' → List.Forall₂ (g.ValueAlike w') vs vs' →
      g.StateAlike globals w' t t' →
      (g.simulation globals).Plans w' (nexts vs t) (nexts' vs' t')) :
    (g.simulation globals).Plans w (.values task s nexts) (.values task' s' nexts') := by
  refine .sub (le_refl w) ⟨htask, hs⟩ fun w' a t a' t' hw ⟨ha, ht⟩ => ?_
  cases ha with
  | values hvs => exact hnext w' _ _ t t' hw hvs ht
  | _ => exact .exhausted

/-- Statements complete in the same way. -/
theorem plans_completion (hw : w ≤ w') (htask : g.TaskAlike w' task task')
    (hs : g.StateAlike globals w' s s')
    (hnormal : ∀ w'' t t', w' ≤ w'' → g.StateAlike globals w'' t t' →
      (g.simulation globals).Plans w'' (after .normal t) (after' .normal t'))
    (hreturned : ∀ w'' v v' t t', w' ≤ w'' → g.ValueAlike w'' v v' →
      g.StateAlike globals w'' t t' →
      (g.simulation globals).Plans w'' (after (.returned v) t) (after' (.returned v') t')) :
    (g.simulation globals).Plans w (.completion task s after) (.completion task' s' after') := by
  refine .sub hw ⟨htask, hs⟩ fun w'' a t a' t' hw'' ⟨ha, ht⟩ => ?_
  cases ha with
  | normal => exact hnormal w'' t t' hw'' ht
  | returned hv => exact hreturned w'' _ _ t t' hw'' hv ht
  | _ => exact .exhausted

private theorem plans_operator {m : Eval Value} (hs : g.StateAlike globals w s s')
    (hm : (∃ v, v.callable = false ∧ ∀ t, m t = .done v t) ∨ ∃ e, ∀ t, m t = .failed e t) :
    (g.simulation globals).Plans w (.finish ((m s).map .value)) (.finish ((m s').map .value)) := by
  rcases hm with ⟨v, hv, hm⟩ | ⟨e, hm⟩
  · rw [hm, hm]
    exact plans_done (.value (.of_not_callable hv)) hs
  · rw [hm, hm]
    exact plans_failed e hs

end

private theorem plans_planExpr {e e' : Expr Node} (hs : g.StateAlike globals w s s')
    (henv : w.Covers shades env) (h : g.ExprAlike shades e e') :
    (g.simulation globals).Plans w (Context.planExpr env s e) (Context.planExpr env s' e') := by
  cases h with
  | literal =>
    refine plans_done (.value (.of_not_callable ?_)) hs
    rename_i v
    cases v <;> rfl
  | grouping he => exact plans_last (le_refl w) (.evaluate henv he) hs
  | reference hx => exact plans_last (le_refl w) (.read henv hx) hs
  | assign hx he =>
    refine plans_value (.evaluate henv he) hs fun w₁ v v' t t' hw hv ht => ?_
    refine .sub (le_refl w₁) ⟨.write (henv.mono hw) hx hv, ht⟩ fun w₂ a u a' u' hw₂ ⟨_, hu⟩ => ?_
    exact plans_done (.value (hv.mono hw₂)) hu
  | @logical n n' l l' op r r' hl hr =>
    refine plans_value (.evaluate henv hl) hs fun w₁ v v' t t' hw hv ht => ?_
    have hdecides : op.decides v = op.decides v' := by
      cases op <;> simp only [LogicalOp.decides, hv.truthy_eq]
    rw [hdecides]
    split
    · exact plans_done (.value hv) ht
    · exact plans_last (le_refl w₁) (.evaluate (henv.mono hw) hr) ht
  | @unary n n' op e e' hn he =>
    refine plans_value (.evaluate henv he) hs fun w₁ v v' t t' hw hv ht => ?_
    rw [hn, op.apply_rel hv]
    exact plans_operator ht (op.apply_cases v' _)
  | @binary n n' l l' op r r' hn hl hr =>
    refine plans_value (.evaluate henv hl) hs fun w₁ v v' t t' hw hv ht => ?_
    refine plans_value (.evaluate (henv.mono hw) hr) ht fun w₂ a a' u u' hw₂ ha hu => ?_
    rw [hn, op.apply_rel (fun _ _ h => h.toMatches.resembles) (hv.mono hw₂) ha]
    exact plans_operator hu (op.apply_cases v' a' _)
  | call hn hc hargs =>
    refine plans_value (.evaluate henv hc) hs fun w₁ f f' t t' hw hf ht => ?_
    refine plans_values (.evaluateAll (henv.mono hw) hargs) ht fun w₂ vs vs' u u' hw₂ hvs hu => ?_
    rw [hn]
    exact plans_last (le_refl w₂) (.call (hf.mono hw₂) hvs) hu

private theorem plans_planAll {es es' : List (Expr Node)} (hs : g.StateAlike globals w s s')
    (henv : w.Covers shades env) (h : List.Forall₂ (g.ExprAlike shades) es es') :
    (g.simulation globals).Plans w (Context.planAll env s es) (Context.planAll env s' es') := by
  cases h with
  | nil => exact plans_done (.values .nil) hs
  | cons he hrest =>
    refine plans_value (.evaluate henv he) hs fun w₁ v v' t t' hw hv ht => ?_
    refine plans_values (.evaluateAll (henv.mono hw) hrest) ht fun w₂ vs vs' u u' hw₂ hvs hu => ?_
    exact plans_done (.values (.cons (hv.mono hw₂) hvs)) hu

private theorem plans_planStmt {stmt stmt' : Stmt Node} (hs : g.StateAlike globals w s s')
    (henv : w.Covers shades env) (h : g.StmtAlike shades stmt stmt') :
    (g.simulation globals).Plans w (Context.planStmt env s stmt)
      (Context.planStmt env s' stmt') := by
  cases h with
  | expression he =>
    exact plans_value (.evaluate henv he) hs fun w₁ v v' t t' hw hv ht => plans_done .normal ht
  | print he =>
    refine plans_value (.evaluate henv he) hs fun w₁ v v' t t' hw hv ht => ?_
    rw [hv.text_eq fun _ _ h => h.toMatches.resembles]
    exact plans_done .normal (ht.print _)
  | varDecl he =>
    cases he with
    | none => exact plans_done .normal (hs.define (.of_not_callable rfl) env _)
    | some he =>
      refine plans_value (.evaluate henv he) hs fun w₁ v v' t t' hw hv ht => ?_
      exact plans_done .normal (ht.define hv env _)
  | @block _ n n' shaded body body' hbody =>
    obtain ⟨hinner, hinner'⟩ := hs.inner_eq env
    rw [Context.planStmt, Context.planStmt, hinner, hinner']
    exact plans_last (Shades.le_openFrame shaded) (.executeAll (henv.openFrame shaded) hbody)
      (hs.openFrame shaded env)
  | ifOnly hc ht =>
    refine plans_value (.evaluate henv hc) hs fun w₁ v v' u u' hw hv hu => ?_
    rw [hv.truthy_eq]
    split
    · exact plans_last (le_refl w₁) (.execute (henv.mono hw) ht) hu
    · exact plans_done .normal hu
  | ifElse hc ht he =>
    refine plans_value (.evaluate henv hc) hs fun w₁ v v' u u' hw hv hu => ?_
    rw [hv.truthy_eq]
    split
    · exact plans_last (le_refl w₁) (.execute (henv.mono hw) ht) hu
    · exact plans_last (le_refl w₁) (.execute (henv.mono hw) he) hu
  | whileLoop hc hbody => exact plans_last (le_refl w) (.executeLoop henv hc hbody) hs
  | @funDecl _ n n' x params shaded body body' hbody =>
    exact plans_done .normal (hs.declare henv hbody x params)
  | returnStmt he =>
    cases he with
    | none => exact plans_done (.returned (.of_not_callable rfl)) hs
    | some he =>
      refine plans_value (.evaluate henv he) hs fun w₁ v v' t t' hw hv ht => ?_
      exact plans_done (.returned hv) ht

private theorem plans_planStmts {stmt stmt' : Stmt Node} {rest rest' : Program Node}
    (hs : g.StateAlike globals w s s') (henv : w.Covers shades env)
    (hstmt : g.StmtAlike shades stmt stmt') (hrest : g.ProgramAlike shades rest rest') :
    (g.simulation globals).Plans w (Context.planStmts env s (stmt :: rest))
      (Context.planStmts env s' (stmt' :: rest')) := by
  refine plans_completion (le_refl w) (.execute henv hstmt) hs (fun w₁ t t' hw ht => ?_)
    fun w₁ v v' t t' hw hv ht => plans_done (.returned hv) ht
  exact plans_last (le_refl w₁) (.executeAll (henv.mono hw) hrest) ht

private theorem plans_planLoop {c c' : Expr Node} {body body' : Stmt Node}
    (hs : g.StateAlike globals w s s') (henv : w.Covers shades env)
    (hc : g.ExprAlike shades c c') (hbody : g.StmtAlike shades body body') :
    (g.simulation globals).Plans w (Context.planLoop env c body s)
      (Context.planLoop env c' body' s') := by
  refine plans_value (.evaluate henv hc) hs fun w₁ v v' t t' hw hv ht => ?_
  rw [hv.truthy_eq]
  split
  · refine plans_completion (le_refl w₁) (.execute (henv.mono hw) hbody) ht
      (fun w₂ u u' hw₂ hu => ?_) fun w₂ a a' u u' hw₂ ha hu => plans_done (.returned ha) hu
    exact plans_last (le_refl w₂) (.executeLoop (henv.mono (le_trans hw hw₂)) hc hbody) hu
  · exact plans_done .normal ht

section

variable {host : Host}

private theorem plans_planCall (hhost : host.Uniform) {f f' : Value} {args args' : List Value}
    (hs : g.StateAlike globals w s s') (hf : g.ValueAlike w f f')
    (hargs : List.Forall₂ (g.ValueAlike w) args args') (l : Option Location) :
    (g.simulation globals).Plans w (Context.planCall ⟨globals, g.table, host⟩ args l s f)
      (Context.planCall ⟨globals, g.table', host⟩ args' l s' f') := by
  have hlength := hargs.length_eq
  cases hf with
  | same hplain =>
    cases f with
    | function c => exact absurd rfl (hplain c)
    | native f =>
      rw [Context.planCall, Context.planCall, hlength]
      split
      · have hreply := hhost (g.ClosureAlike w) (fun _ _ h => h.toMatches)
          s.calls f args args' hargs
        rw [← hs.calls]
        dsimp only
        generalize host s.calls f args = reply at hreply
        generalize host s.calls f args' = reply' at hreply
        cases hreply with
        | value hv => exact plans_done (.value hv) hs.counted
        | call hf hargs => exact plans_last (le_refl w) (.call hf hargs) hs.counted
      · exact plans_failed _ hs
    | _ => exact plans_failed _ hs
  | @function c c' hc =>
    rw [Context.planCall, Context.planCall, hlength, hc.params, hc.name]
    split
    · obtain ⟨shaded, shades, hcovers, hbody⟩ := hc.body
      rw [(hs.inner_eq c.env).1, ← hc.env, (hs.inner_eq c.env).2]
      refine plans_completion (Shades.le_openFrame shaded)
        (.executeAll (hcovers.openFrame shaded) hbody) (hs.enter hc.toMatches hargs shaded)
        (fun w₁ t t' _ ht => ?_) fun w₁ v v' t t' _ hv ht => plans_done (.value hv) ht
      exact plans_done (.value (.of_not_callable rfl)) ht
    · exact plans_failed _ hs

private theorem plans_read {n n' : Node} {x : Name} (hs : g.StateAlike globals w s s')
    (henv : w.Covers shades env) (hx : g.Access shades x n n') :
    (g.simulation globals).Plans w (Context.plan ⟨globals, g.table, host⟩ (.read env n x) s)
      (Context.plan ⟨globals, g.table', host⟩ (.read env n' x) s') := by
  obtain ⟨heq, hfound⟩ := hs.holder?_alike henv hx host
  rw [Context.plan, Context.plan]
  cases hi : Context.holder? ⟨globals, g.table, host⟩ env n x s.store with
  | none =>
    rw [Context.read_of_no_holder hi, Context.read_of_no_holder (heq.symm.trans hi), hx.location]
    exact plans_failed _ hs
  | some i =>
    obtain ⟨shaded, hshaded, hname⟩ := hfound i hi
    obtain ⟨v, hv, hread⟩ := Context.read_of_holder? hi
    obtain ⟨v', hv', hread'⟩ := Context.read_of_holder? (heq.symm.trans hi)
    have hlookup := (hs.frames i shaded hshaded).lookup hname
    rw [hv, hv'] at hlookup
    rw [hread, hread']
    cases hlookup with
    | some hvalue => exact plans_done (.value hvalue) hs

private theorem plans_write {n n' : Node} {x : Name} {v v' : Value}
    (hs : g.StateAlike globals w s s')
    (henv : w.Covers shades env) (hx : g.Access shades x n n') (hv : g.ValueAlike w v v') :
    (g.simulation globals).Plans w (Context.plan ⟨globals, g.table, host⟩ (.write env n x v) s)
      (Context.plan ⟨globals, g.table', host⟩ (.write env n' x v') s') := by
  obtain ⟨heq, -⟩ := hs.holder?_alike henv hx host
  rw [Context.plan, Context.plan]
  cases hi : Context.holder? ⟨globals, g.table, host⟩ env n x s.store with
  | none =>
    rw [Context.write_of_no_holder hi, Context.write_of_no_holder (heq.symm.trans hi), hx.location]
    exact plans_failed _ hs
  | some i =>
    rw [Context.write_of_holder? hi, Context.write_of_holder? (heq.symm.trans hi)]
    exact plans_done .written (hs.setIn hv i x)

/-- The added declaration runs by itself: it defines its variable, and no access sees that. -/
theorem leads_behind_literal (ctx : Context) (env : Environment) (n m : Node) (x : Name)
    (v : Literal) (rest : Program Node) (s : State) :
    ctx.Leads (.executeAll env (.varDecl n x (some (.literal m v)) :: rest)) s
      (.executeAll env rest) (s.define env x (.ofLiteral v)) := by
  have hliteral : ctx.Yields (.evaluate env (.literal m v)) s
      (.done (.value (.ofLiteral v)) s) := Context.yields_iff.mpr (Plan.yields_done.mpr rfl)
  have hdeclaration : ctx.Yields (.execute env (.varDecl n x (some (.literal m v)))) s
      (.done (.completion .normal) (s.define env x (.ofLiteral v))) :=
    Context.yields_iff.mpr (Plan.Yields.sub hliteral (Plan.yields_done.mpr rfl))
  exact Context.leads_of_plan rfl hdeclaration rfl

/-- Where the two programs differ, the second run comes to where the first one is. -/
theorem exists_leads (ctx : Context) {p p' : Program Node} (hs : g.StateAlike globals w s s')
    (henv : w.Covers shades env) (h : g.ProgramAlike shades p p') :
    ∃ p₁ s₁, ctx.Leads (.executeAll env p') s' (.executeAll env p₁) s₁ ∧
      g.StateAlike globals w s s₁ ∧
      (p = [] ∧ p₁ = [] ∨ ∃ stmt stmt' rest rest', p = stmt :: rest ∧ p₁ = stmt' :: rest' ∧
        g.StmtAlike shades stmt stmt' ∧ g.ProgramAlike shades rest rest') := by
  induction p' generalizing s' with
  | nil =>
    cases h with
    | nil => exact ⟨[], s', .refl, hs, .inl ⟨rfl, rfl⟩⟩
  | cons stmt' rest' ih =>
    cases h with
    | cons hstmt hrest =>
      exact ⟨_, s', .refl, hs, .inr ⟨_, _, _, _, rfl, rfl, hstmt, hrest⟩⟩
    | @insert _ n m v _ _ hrest =>
      obtain ⟨p₁, s₁, hleads, hs₁, hp₁⟩ := ih (hs.shade henv (.ofLiteral v)) hrest
      exact ⟨p₁, s₁, (leads_behind_literal ctx env n m g.name v rest' s').trans hleads, hs₁, hp₁⟩

/-- The runs of the two programs match. -/
theorem matches_simulation (hhost : host.Uniform) :
    (g.simulation globals).Matches ⟨globals, g.table, host⟩ ⟨globals, g.table', host⟩ := by
  intro w task s task' s' ⟨htask, hs⟩
  cases htask with
  | evaluate henv he => exact ⟨_, _, _, _, .refl, .refl, plans_planExpr hs henv he⟩
  | evaluateAll henv hes => exact ⟨_, _, _, _, .refl, .refl, plans_planAll hs henv hes⟩
  | call hf hargs => exact ⟨_, _, _, _, .refl, .refl, plans_planCall hhost hs hf hargs _⟩
  | execute henv hstmt => exact ⟨_, _, _, _, .refl, .refl, plans_planStmt hs henv hstmt⟩
  | executeLoop henv hc hbody =>
    exact ⟨_, _, _, _, .refl, .refl, plans_planLoop hs henv hc hbody⟩
  | read henv hx => exact ⟨_, _, _, _, .refl, .refl, plans_read hs henv hx⟩
  | write henv hx hv => exact ⟨_, _, _, _, .refl, .refl, plans_write hs henv hx hv⟩
  | executeAll henv hp =>
    obtain ⟨p₁, s₁, hleads, hs₁, ⟨rfl, rfl⟩ | ⟨stmt, stmt', rest, rest', rfl, rfl, hstmt, hrest⟩⟩ :=
      exists_leads ⟨globals, g.table', host⟩ hs henv hp
    · exact ⟨_, _, _, _, .refl, hleads, plans_done .normal hs₁⟩
    · exact ⟨_, _, _, _, .refl, hleads, plans_planStmts hs₁ henv hstmt hrest⟩

end

end Shading

/-- What can be seen when a run has ended: the lines it printed, its error, and the globals with the
texts of their values. -/
structure Trace where
  output : Array Text
  error : Option RuntimeError
  globals : List (Name × Option Text)

def State.trace (globals : Environment) (error : Option RuntimeError) (s : State) : Trace :=
  ⟨s.output, error,
    (s.store.names globals).map fun x => (x, (s.store.get? globals x).map Value.text)⟩

def Outcome.trace? {α : Type} (globals : Environment) : Outcome α → Option Trace
  | .done _ s => some (s.trace globals none)
  | .failed e s => some (s.trace globals (some e))
  | .exhausted => none

private theorem Outcome.trace?_map {α β : Type} (globals : Environment) (f : α → β)
    (o : Outcome α) : (o.map f).trace? globals = o.trace? globals := by
  cases o <;> rfl

namespace Shading

variable {g : Shading} {globals : Environment} {w : Shades} {s s' : State}

private theorem StateAlike.trace_eq (h : g.StateAlike globals w s s')
    (error : Option RuntimeError) : s.trace globals error = s'.trace globals error := by
  have hnames : s.store.names globals = s'.store.names globals := by
    have hglobals := h.globals
    cases globals with
    | nil => rfl
    | cons i outer => exact Frame.Rel.names_eq (h.frames i false (hglobals i List.mem_cons_self))
  have htexts (x : Name) : (s.store.get? globals x).map Value.text =
      (s'.store.get? globals x).map Value.text := by
    obtain ⟨heq, hfound⟩ := h.holder?_eq h.globals x
    unfold Store.get?
    rw [← heq]
    cases hi : s.store.holder? x globals with
    | none => rfl
    | some i =>
      have hlookup := (h.frames i false (h.globals i (hfound i hi))).lookup (x := x) nofun
      dsimp only [Option.bind]
      generalize (s.store.frame i).lookup x = found at hlookup
      generalize (s'.store.frame i).lookup x = found' at hlookup
      cases hlookup with
      | none => rfl
      | some hv => exact congrArg some (hv.text_eq fun _ _ h => h.toMatches.resembles)
  unfold State.trace
  rw [h.output, hnames]
  simp only [htexts]

private theorem trace?_eq {o o' : Outcome Answer} (h : (g.simulation globals).Outcomes w o o') :
    o.trace? globals = o'.trace? globals := by
  cases o with
  | done a t =>
    cases o' with
    | done a' t' => exact congrArg some (h.2.trace_eq none)
    | _ => exact h.elim
  | failed e t =>
    cases o' with
    | failed e' t' =>
      obtain ⟨rfl, ht⟩ := h
      exact congrArg some (ht.trace_eq (some e))
    | _ => exact h.elim
  | exhausted => exact h.elim

/-- A run starts with its native functions in the globals. -/
theorem stateAlike_root (natives : List Native) :
    g.StateAlike (Store.empty.root natives).1 ⟨[false]⟩ ⟨(Store.empty.root natives).2, #[], 0, 0⟩
      ⟨(Store.empty.root natives).2, #[], 0, 0⟩ := by
  have hempty : g.StateAlike [] ⟨[]⟩ ⟨Store.empty, #[], 0, 0⟩ ⟨Store.empty, #[], 0, 0⟩ :=
    ⟨rfl, rfl, nofun, rfl, rfl, rfl, nofun⟩
  have hdefined (store : Store)
      (h : g.StateAlike [] ⟨[false]⟩ ⟨store, #[], 0, 0⟩ ⟨store, #[], 0, 0⟩) :
      g.StateAlike [] ⟨[false]⟩ ⟨store.defineNatives [0] natives, #[], 0, 0⟩
        ⟨store.defineNatives [0] natives, #[], 0, 0⟩ := by
    unfold Store.defineNatives
    induction natives generalizing store with
    | nil => exact h
    | cons f rest ih =>
      have hf : g.ValueAlike ⟨[false]⟩ (.native f) (.native f) := .same nofun
      exact ih _ (h.define hf [0] f.name)
  refine { hdefined _ (hempty.openFrame false []) with globals := fun i hi => ?_ }
  rw [List.mem_singleton.mp hi]
  rfl

end Shading

/-- What is seen of a task that ends is seen of one that follows it. -/
theorem Simulation.exists_trace {World : Type} [Preorder World] {S : Simulation World}
    {ctx ctx' : Context} {globals : Environment} {w : World} {task task' : Task} {s s' : State}
    {trace : Trace} (hmatches : S.Matches ctx ctx')
    (hsame : ∀ w o o', S.Outcomes w o o' → o.trace? globals = o'.trace? globals)
    (htasks : S.tasks w task s task' s')
    (h : ∃ work, (ctx.run work task s).trace? globals = some trace) :
    ∃ work, (ctx'.run work task' s').trace? globals = some trace := by
  obtain ⟨work, hwork⟩ := h
  have hne : ctx.run work task s ≠ .exhausted := by
    intro ho
    rw [ho] at hwork
    cases hwork
  obtain ⟨o', w', -, ⟨-, work', rfl⟩, houtcomes⟩ :=
    hmatches.follows work w task s task' s' htasks hne
  exact ⟨work', by rw [← hsame w' _ _ houtcomes, hwork]⟩

/-- The statements of a block that ends a program of two statements. -/
def Program.secondBody? {α : Type} : Program α → Option (List (Stmt α))
  | [_, .block _ body] => some body
  | _ => none

private theorem Program.eq_of_secondBody? {α : Type} {p : Program α} {body : List (Stmt α)}
    (h : Program.secondBody? p = some body) : ∃ first note, p = [first, .block note body] := by
  unfold Program.secondBody? at h
  split at h
  · cases h
    exact ⟨_, _, rfl⟩
  · cases h

/-- Where the resolver reports nothing of a program, it reports nothing if a variable is declared
behind all uses of its name in a block or function body, and what can be seen of the two resolved
runs is the same. The nodes of the two programs may have the same keys or different ones. -/
theorem shadowing_unseen {k : Nat} {source : Text} {program program' : Program Node}
    (hparse : parseKeyed? k source = .ok program) {x : Name}
    (hshadowed :
      Program.Shadowed x (Program.map Keyed.location program) (Program.map Keyed.location program'))
    (hkeys' : (Program.keys program').Nodup) {known : List Name} {reportUndefined : Bool}
    (hclean : (resolve known reportUndefined program).diagnostics = []) :
    let resolved := resolve known reportUndefined program
    let resolved' := resolve known reportUndefined program'
    resolved'.diagnostics = [] ∧
      ∀ host : Host, host.Uniform → ∀ natives : List Native,
        let globals := (Store.empty.root natives).1
        let start : State := ⟨(Store.empty.root natives).2, #[], 0, 0⟩
        ∀ trace, (∃ work, (Context.interpret ⟨globals, resolved.table, host⟩ work program
            start).trace? globals = some trace) ↔
          ∃ work, (Context.interpret ⟨globals, resolved'.table, host⟩ work program'
            start).trace? globals = some trace := by
  intro resolved resolved'
  obtain ⟨hdiagnostics, halike⟩ := resolve_shadowed hshadowed (scoped_of_parseKeyed? hparse)
    (nodup_keys_of_parseKeyed? hparse) hkeys' known reportUndefined
  refine ⟨hdiagnostics.trans hclean, fun host hhost natives => ?_⟩
  intro globals start trace
  let g : Shading := ⟨x, resolved.table, resolved'.table⟩
  have hmatches : (g.simulation globals).Matches ⟨globals, resolved.table, host⟩
      ⟨globals, resolved'.table, host⟩ := Shading.matches_simulation hhost
  have hstart : g.StateAlike globals ⟨[false]⟩ start start := Shading.stateAlike_root natives
  have hcovers : (⟨[false]⟩ : Shades).Covers [] globals :=
    fun d i hi => hstart.globals i (List.mem_of_getElem? hi)
  have htasks : (g.simulation globals).tasks ⟨[false]⟩ (.executeAll globals program) start
      (.executeAll globals program') start :=
    ⟨.executeAll hcovers halike, hstart⟩
  simp only [Context.interpret_eq_run, Outcome.trace?_map]
  constructor
  · exact Simulation.exists_trace hmatches (fun _ _ _ => Shading.trace?_eq) htasks
  · refine Simulation.exists_trace hmatches.flip (fun w o o' h => ?_) htasks
    exact (Shading.trace?_eq (Simulation.outcomes_flip.mp h)).symm

/-- A function that has been declared before the further variable is called behind it. -/
theorem shadowing_unseen_closure :
    let source : Text := "var n = 1; \x7b fun f() \x7b print n; \x7d f(); f(); \x7d"
    ∃ first note declaration call call',
      let program : Program Node := [first, .block note [declaration, call, call']]
      parseKeyed? firstKey source = .ok program ∧
      let k := (parseKeyed firstKey source).2
      let further : Stmt Node :=
        .varDecl ⟨k + 1, .unknown⟩ "n" (some (.literal ⟨k, .unknown⟩ .nil))
      let program' : Program Node := [first, .block note [declaration, call, further, call']]
      let resolved := resolve ["clock"] true program
      let resolved' := resolve ["clock"] true program'
      let host := Host.standard (.stopped Number.zero)
      resolved.diagnostics = [] ∧ resolved'.diagnostics = [] ∧
      ∀ trace, (∃ work, (Context.interpret ⟨Command.start.1, resolved.table, host⟩ work program
          Command.start.2).trace? Command.start.1 = some trace) ↔
        ∃ work, (Context.interpret ⟨Command.start.1, resolved'.table, host⟩ work program'
          Command.start.2).trace? Command.start.1 = some trace := by
  intro source
  let k := (parseKeyed firstKey source).2
  obtain ⟨p, hparse, hbody, hclean, hfresh⟩ :
      ∃ p, parseKeyed? firstKey source = .ok p ∧
        ((Program.secondBody? p).any fun body =>
          body.length = 3 ∧ ("n" : Name) ∉ Program.declared (Program.map Keyed.location body) ∧
            (Program.accesses (Program.map Keyed.location (body.drop 2))).all
              fun a => a.name ≠ ("n" : Name)) = true ∧
        (resolve ["clock"] true p).diagnostics = [] ∧ (Program.keys p ++ [k, k + 1]).Nodup :=
    exists_parseKeyed?_of_any (by decide +kernel)
  obtain ⟨body, hsecond, htest⟩ := (Option.any_eq_true _ _).mp hbody
  obtain ⟨hlength, hdeclared, hlast⟩ := of_decide_eq_true htest
  obtain ⟨first, note, rfl⟩ := Program.eq_of_secondBody? hsecond
  obtain ⟨declaration, call, call', rfl⟩ := List.length_eq_three.mp hlength
  have haccesses : ∀ a ∈ Program.accesses (Program.map Keyed.location [call']),
      a.name ≠ ("n" : Name) :=
    fun a ha => of_decide_eq_true (List.all_eq_true.mp hlast a ha)
  let further : Stmt Node := .varDecl ⟨k + 1, .unknown⟩ "n" (some (.literal ⟨k, .unknown⟩ .nil))
  have hshadowed : Program.Shadowed ("n" : Name)
      (Program.map Keyed.location [first, .block note [declaration, call, call']])
      (Program.map Keyed.location [first, .block note [declaration, call, further, call']]) :=
    .later (.inBlock ⟨Program.map Keyed.location [declaration, call],
      Program.map Keyed.location [call'], _, _, .nil, rfl, rfl,
      List.not_mem_nil, hdeclared, haccesses⟩)
  have hkeys' : (Program.keys [first, .block note [declaration, call, further, call']]).Nodup := by
    have hperm : (Program.keys [first, .block note [declaration, call, further, call']]).Perm
        (Program.keys [first, .block note [declaration, call, call']] ++ [k, k + 1]) := by
      simp only [Program.keys, Program.notes, Stmt.notes, Expr.notes?, Expr.notes, further,
        List.map_append, List.map_cons, List.map_nil, List.append_nil, List.append_assoc,
        Option.map_some, Option.getD_some, List.perm_append_left_iff]
      -- the two keys stand in front of the last statement instead of at the end
      have hcomm : ([k, k + 1] ++ (call'.notes.map Keyed.key ++ [note.key])).Perm _ :=
        List.perm_append_comm
      rwa [List.append_assoc] at hcomm
    exact hperm.nodup_iff.mpr hfresh
  obtain ⟨hclean', htraces⟩ := shadowing_unseen hparse hshadowed hkeys' hclean
  exact ⟨first, note, declaration, call, call', hparse, hclean, hclean',
    htraces _ (Host.uniform_standard _) Native.standard⟩

end Lox
