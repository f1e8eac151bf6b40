import Lox.Proofs.Run.Alike
import Lox.Proofs.Run.Coupling
import Lox.Proofs.Tree.Relabel

/-! Two runs of the same programs with other keys. Where both tables say the same of every access,
or both say nothing of it, the runs are in step: they print the same, fail with the same errors, and
keep the same variables. -/

namespace Lox

/-- Two tables of resolutions for programs that differ in the keys of their nodes only. All keys so
far are below the bounds. -/
structure Rekeying where
  table : ResolutionTable
  bound : Nat
  table' : ResolutionTable
  bound' : Nat

namespace Rekeying

variable (g : Rekeying)

/-- Of the accesses both tables say the same. -/
def Agrees (accesses : List (Access Twin)) : Prop :=
  ∀ a ∈ accesses, a.note.key < g.bound ∧ a.note.key' < g.bound' ∧
    g.table[a.note.key]? = g.table'[a.note.key']?

structure ClosureAlike (c c' : Closure) : Prop extends Closure.Matches c c' where
  body : ∃ p, c.body = Program.map Twin.left p ∧ c'.body = Program.map Twin.right p ∧
    g.Agrees (Program.accesses p)

abbrev ValueAlike : Value → Value → Prop := Value.Rel g.ClosureAlike

structure StateAlike (s s' : State) : Prop where
  size : s.store.frames.size = s'.store.frames.size
  frames : ∀ i, (s.store.frame i).Rel g.ValueAlike (s'.store.frame i)
  output : s.output = s'.output
  nextFunction : s.nextFunction = s'.nextFunction
  calls : s.calls = s'.calls

inductive TaskAlike : Task → Task → Prop where
  | evaluate {env} {e : Expr Twin} : g.Agrees e.accesses →
      TaskAlike (.evaluate env (e.map Twin.left)) (.evaluate env (e.map Twin.right))
  | evaluateAll {env} {es : List (Expr Twin)} : g.Agrees (Expr.accessesAll es) →
      TaskAlike (.evaluateAll env (Expr.mapAll Twin.left es))
        (.evaluateAll env (Expr.mapAll Twin.right es))
  | call {f f' args args' l} : g.ValueAlike f f' → List.Forall₂ g.ValueAlike args args' →
      TaskAlike (.call f args l) (.call f' args' l)
  | execute {env} {s : Stmt Twin} : g.Agrees s.accesses →
      TaskAlike (.execute env (s.map Twin.left)) (.execute env (s.map Twin.right))
  | executeAll {env} {p : Program Twin} : g.Agrees (Program.accesses p) →
      TaskAlike (.executeAll env (Program.map Twin.left p))
        (.executeAll env (Program.map Twin.right p))
  | executeLoop {env} {c : Expr Twin} {body : Stmt Twin} : g.Agrees c.accesses →
      g.Agrees body.accesses →
      TaskAlike (.executeLoop env (c.map Twin.left) (body.map Twin.left))
        (.executeLoop env (c.map Twin.right) (body.map Twin.right))
  | read {env n n' x} : n.location = n'.location → g.table[n.key]? = g.table'[n'.key]? →
      TaskAlike (.read env n x) (.read env n' x)
  | write {env n n' x v v'} : n.location = n'.location → g.table[n.key]? = g.table'[n'.key]? →
      g.ValueAlike v v' → TaskAlike (.write env n x v) (.write env n' x v')

def coupling : Coupling where
  states := g.StateAlike
  values := g.ValueAlike
  tasks := g.TaskAlike
  accesses h := by cases h <;> rfl

/-- Tables that have grown with further programs. -/
structure Grows (g g' : Rekeying) : Prop where
  bound : g.bound ≤ g'.bound
  bound' : g.bound' ≤ g'.bound'
  table : ∀ key < g.bound, g'.table[key]? = g.table[key]?
  table' : ∀ key < g.bound', g'.table'[key]? = g.table'[key]?

section

variable {g g' : Rekeying} {accesses others : List (Access Twin)} {s s' : State}
  {v v' : Value} {env : Environment}

theorem agrees_append : g.Agrees (accesses ++ others) ↔
    g.Agrees accesses ∧ g.Agrees others :=
  List.forall_mem_append

theorem Agrees.mono (h : g.Agrees accesses) (hg : g.Grows g') : g'.Agrees accesses := by
  intro a ha
  obtain ⟨hbound, hbound', htable⟩ := h a ha
  rw [hg.table _ hbound, hg.table' _ hbound']
  exact ⟨Nat.lt_of_lt_of_le hbound hg.bound, Nat.lt_of_lt_of_le hbound' hg.bound', htable⟩

theorem ClosureAlike.mono {c c' : Closure} (h : g.ClosureAlike c c') (hg : g.Grows g') :
    g'.ClosureAlike c c' := by
  obtain ⟨p, hbody, hbody', hagrees⟩ := h.body
  exact ⟨h.toMatches, p, hbody, hbody', hagrees.mono hg⟩

private theorem ClosureAlike.matches_of (c c' : Closure) (h : g.ClosureAlike c c') : c.Matches c' :=
  h.toMatches

theorem ClosureAlike.resembles_of (c c' : Closure) (h : g.ClosureAlike c c') : c.Resembles c' :=
  h.toMatches.resembles

namespace StateAlike

theorem mono (h : g.StateAlike s s') (hg : g.Grows g') : g'.StateAlike s s' := by
  refine { h with frames := fun i => Frame.Rel.mono (h.frames i) fun _ _ hv => ?_ }
  exact Value.Rel.mono hv fun _ _ hc => hc.mono hg

theorem setIn (h : g.StateAlike s s') (hv : g.ValueAlike v v') (i : Nat) (x : Name) :
    g.StateAlike { s with store := s.store.setIn i x v }
      { s' with store := s'.store.setIn i x v' } := by
  refine { h with size := ?_, frames := fun j => ?_ }
  · rw [Store.size_setIn, Store.size_setIn, h.size]
  · by_cases hi : i < s.store.frames.size
    · rw [Store.frame_setIn _ _ _ _ _ hi, Store.frame_setIn _ _ _ _ _ (by rwa [← h.size])]
      by_cases hj : j = i
      · rw [if_pos hj, if_pos hj]
        exact Frame.Rel.set (h.frames i) hv x
      · rw [if_neg hj, if_neg hj]
        exact h.frames j
    · have hsize := Nat.le_of_not_lt hi
      rw [World.setIn_of_size_le _ hsize, World.setIn_of_size_le _ (by rwa [← h.size])]
      exact h.frames j

theorem define (h : g.StateAlike s s') (hv : g.ValueAlike v v') (env : Environment) (x : Name) :
    g.StateAlike (s.define env x v) (s'.define env x v') := by
  cases env with
  | nil => exact h
  | cons i env => exact h.setIn hv i x

private theorem defineAll {args args' : List Value} (h : g.StateAlike s s')
    (hargs : List.Forall₂ g.ValueAlike args args') (env : Environment) (xs : List Name) :
    g.StateAlike { s with store := s.store.defineAll env xs args }
      { s' with store := s'.store.defineAll env xs args' } := by
  induction xs generalizing s s' args args' with
  | nil => exact h
  | cons x xs ih =>
    cases hargs with
    | nil => exact h
    | cons hv hrest => exact ih (h.define hv env x) hrest

theorem openFrame (h : g.StateAlike s s') (env : Environment) :
    g.StateAlike (s.openFrame env) (s'.openFrame env) := by
  refine { h with size := ?_, frames := fun i => ?_ }
  · simp [State.openFrame, h.size]
  · simp only [State.openFrame, Store.frame_child]
    exact h.frames i

theorem inner_eq (h : g.StateAlike s s') (env : Environment) : s.inner env = s'.inner env := by
  unfold State.inner
  rw [h.size]

private theorem enter {c c' : Closure} {args args' : List Value} (h : g.StateAlike s s')
    (hc : c.Matches c') (hargs : List.Forall₂ g.ValueAlike args args') :
    g.StateAlike (s.enter c args) (s'.enter c' args') := by
  unfold State.enter
  rw [← hc.params, ← hc.env, ← h.inner_eq]
  exact (h.openFrame c.env).defineAll hargs (s.inner c.env) c.params

private theorem declare {p : Program Twin} (h : g.StateAlike s s')
    (hp : g.Agrees (Program.accesses p)) (x : Name) (params : List Name)
    (env : Environment) :
    g.StateAlike (s.declare x params (Program.map Twin.left p) env)
      (s'.declare x params (Program.map Twin.right p) env) := by
  have hclosure : g.ClosureAlike (s.closure x params (Program.map Twin.left p) env)
      (s'.closure x params (Program.map Twin.right p) env) :=
    { id := h.nextFunction, name := rfl, params := rfl, env := rfl,
      body := ⟨p, rfl, rfl, hp⟩ }
  have hcounted : g.StateAlike { s with nextFunction := s.nextFunction + 1 }
      { s' with nextFunction := s'.nextFunction + 1 } :=
    { h with nextFunction := by rw [h.nextFunction] }
  exact hcounted.define (.function hclosure) env x

private theorem counted (h : g.StateAlike s s') : g.StateAlike s.counted s'.counted :=
  { h with calls := congrArg Nat.succ h.calls }

private theorem print (h : g.StateAlike s s') (line : Text) :
    g.StateAlike { s with output := s.output.push line }
      { s' with output := s'.output.push line } :=
  { h with output := by rw [h.output] }

theorem binds_eq (h : g.StateAlike s s') (i : Nat) (x : Name) :
    s.store.binds i x = s'.store.binds i x := by
  have hlookup := Frame.Rel.lookup (h.frames i) x
  unfold Store.binds
  generalize (s.store.frame i).lookup x = found at hlookup
  generalize (s'.store.frame i).lookup x = found' at hlookup
  cases hlookup <;> rfl

theorem storeHolder?_eq (h : g.StateAlike s s') (x : Name) (env : Environment) :
    s.store.holder? x env = s'.store.holder? x env := by
  induction env with
  | nil => rfl
  | cons i outer ih => rw [Store.holder?, Store.holder?, h.binds_eq, ih]

/-- An access finds its variable in the same frame, or nowhere. -/
theorem holder?_eq (h : g.StateAlike s s') {n n' : Node}
    (htable : g.table[n.key]? = g.table'[n'.key]?) (globals env : Environment) (host : Host)
    (x : Name) : Context.holder? ⟨globals, g.table, host⟩ env n x s.store =
      Context.holder? ⟨globals, g.table', host⟩ env n' x s'.store := by
  unfold Context.holder?
  rw [htable, h.storeHolder?_eq, h.storeHolder?_eq]
  simp only [Store.holderAt?, h.binds_eq]

end StateAlike

private theorem plans_operator {m : Eval Value} (hs : g.StateAlike s s')
    (hm : (∃ v, v.callable = false ∧ ∀ t, m t = .done v t) ∨ ∃ e, ∀ t, m t = .failed e t) :
    g.coupling.Plans (.finish ((m s).map .value)) (.finish ((m s').map .value)) := by
  rcases hm with ⟨v, hv, hm⟩ | ⟨e, hm⟩
  · rw [hm, hm]
    exact .done (.value (.of_not_callable hv)) hs
  · rw [hm, hm]
    exact .failed e hs

private theorem plans_planExpr {e : Expr Twin} (hs : g.StateAlike s s') (h : g.Agrees e.accesses) :
    g.coupling.Plans (Context.planExpr env s (e.map Twin.left))
      (Context.planExpr env s' (e.map Twin.right)) := by
  cases e with
  | literal n l =>
    refine .done (.value (.of_not_callable ?_)) hs
    cases l <;> rfl
  | grouping n e => exact .last (.evaluate h) hs
  | reference n x =>
    obtain ⟨-, -, htable⟩ := h _ (List.mem_singleton_self _)
    exact .last (.read rfl htable) hs
  | assign n x e =>
    obtain ⟨he, hx⟩ := agrees_append.mp h
    obtain ⟨-, -, htable⟩ := hx _ (List.mem_singleton_self _)
    refine .value (.evaluate he) hs fun v v' t t' hv ht => ?_
    exact .sub (.write rfl htable hv) ht fun _ _ _ _ _ hu => .done (.value hv) hu
  | logical n l op r =>
    obtain ⟨hl, hr⟩ := agrees_append.mp h
    refine .value (.evaluate hl) hs fun v v' t t' hv ht => ?_
    have hdecides : op.decides v = op.decides v' := by
      cases op <;> simp only [LogicalOp.decides, hv.truthy_eq]
    rw [hdecides]
    split
    · exact .done (.value hv) ht
    · exact .last (.evaluate hr) ht
  | unary n op e =>
    refine .value (.evaluate h) hs fun v v' t t' hv ht => ?_
    rw [op.apply_rel hv]
    exact plans_operator ht (op.apply_cases v' _)
  | binary n l op r =>
    obtain ⟨hl, hr⟩ := agrees_append.mp h
    refine .value (.evaluate hl) hs fun v v' t t' hv ht => ?_
    refine .value (.evaluate hr) ht fun a a' u u' ha hu => ?_
    rw [op.apply_rel ClosureAlike.resembles_of hv ha]
    exact plans_operator hu (op.apply_cases v' a' _)
  | call n c args =>
    obtain ⟨hc, hargs⟩ := agrees_append.mp h
    refine .value (.evaluate hc) hs fun f f' t t' hf ht => ?_
    refine .values (.evaluateAll hargs) ht fun vs vs' u u' hvs hu => ?_
    exact .last (.call hf hvs) hu

private theorem plans_planAll {es : List (Expr Twin)} (hs : g.StateAlike s s')
    (h : g.Agrees (Expr.accessesAll es)) :
    g.coupling.Plans (Context.planAll env s (Expr.mapAll Twin.left es))
      (Context.planAll env s' (Expr.mapAll Twin.right es)) := by
  cases es with
  | nil => exact .done (.values .nil) hs
  | cons e rest =>
    obtain ⟨he, hrest⟩ := agrees_append.mp h
    refine .value (.evaluate he) hs fun v v' t t' hv ht => ?_
    refine .values (.evaluateAll hrest) ht fun vs vs' u u' hvs hu => ?_
    exact .done (.values (.cons hv hvs)) hu

private theorem plans_planStmt {stmt : Stmt Twin} (hs : g.StateAlike s s')
    (h : g.Agrees stmt.accesses) :
    g.coupling.Plans (Context.planStmt env s (stmt.map Twin.left))
      (Context.planStmt env s' (stmt.map Twin.right)) := by
  cases stmt with
  | expression n e =>
    exact .value (.evaluate h) hs fun _ _ _ _ _ ht => .done .normal ht
  | print n e =>
    refine .value (.evaluate h) hs fun v v' t t' hv ht => ?_
    rw [hv.text_eq ClosureAlike.resembles_of]
    exact .done .normal (ht.print _)
  | varDecl n x e =>
    cases e with
    | none => exact .done .normal (hs.define (.of_not_callable rfl) env x)
    | some e =>
      refine .value (.evaluate h) hs fun v v' t t' hv ht => ?_
      exact .done .normal (ht.define hv env x)
  | block n body =>
    have hinner := hs.inner_eq env
    simp only [Stmt.map, Context.planStmt, hinner]
    exact .last (.executeAll h) (hs.openFrame env)
  | ifElse n c t e =>
    cases e with
    | none =>
      obtain ⟨hc, ht⟩ := agrees_append.mp h
      refine .value (.evaluate hc) hs fun v v' u u' hv hu => ?_
      rw [hv.truthy_eq]
      split
      · exact .last (.execute ht) hu
      · exact .done .normal hu
    | some e =>
      obtain ⟨hct, he⟩ := agrees_append.mp h
      obtain ⟨hc, ht⟩ := agrees_append.mp hct
      refine .value (.evaluate hc) hs fun v v' u u' hv hu => ?_
      rw [hv.truthy_eq]
      split
      · exact .last (.execute ht) hu
      · exact .last (.execute he) hu
  | whileLoop n c body =>
    obtain ⟨hc, hbody⟩ := agrees_append.mp h
    exact .last (.executeLoop hc hbody) hs
  | funDecl n x params body => exact .done .normal (hs.declare h x params env)
  | returnStmt n e =>
    cases e with
    | none => exact .done (.returned (.of_not_callable rfl)) hs
    | some e =>
      exact .value (.evaluate h) hs fun v v' t t' hv ht => .done (.returned hv) ht

private theorem plans_planStmts {p : Program Twin} (hs : g.StateAlike s s')
    (h : g.Agrees (Program.accesses p)) :
    g.coupling.Plans (Context.planStmts env s (Program.map Twin.left p))
      (Context.planStmts env s' (Program.map Twin.right p)) := by
  cases p with
  | nil => exact .done .normal hs
  | cons stmt rest =>
    obtain ⟨hstmt, hrest⟩ := agrees_append.mp h
    refine .completion (.execute hstmt) hs (fun t t' ht => ?_)
      fun v v' t t' hv ht => .done (.returned hv) ht
    exact .last (.executeAll hrest) ht

private theorem plans_planLoop {c : Expr Twin} {body : Stmt Twin} (hs : g.StateAlike s s')
    (hc : g.Agrees c.accesses) (hbody : g.Agrees body.accesses) :
    g.coupling.Plans (Context.planLoop env (c.map Twin.left) (body.map Twin.left) s)
      (Context.planLoop env (c.map Twin.right) (body.map Twin.right) s') := by
  refine .value (.evaluate hc) hs fun v v' t t' hv ht => ?_
  rw [hv.truthy_eq]
  split
  · refine .completion (.execute hbody) ht (fun u u' hu => ?_)
      fun a a' u u' ha hu => .done (.returned ha) hu
    exact .last (.executeLoop hc hbody) hu
  · exact .done .normal ht

section

variable {host : Host} {globals : Environment}

private theorem plans_planCall (hhost : host.Uniform) {f f' : Value} {args args' : List Value}
    (hs : g.StateAlike s s') (hf : g.ValueAlike f f')
    (hargs : List.Forall₂ g.ValueAlike args args') (l : Option Location) :
    g.coupling.Plans (Context.planCall ⟨globals, g.table, host⟩ args l s f)
      (Context.planCall ⟨globals, g.table', host⟩ args' l s' f') := by
  have hlength := hargs.length_eq
  cases hf with
  | same hplain =>
    cases f with
    | function c => exact absurd rfl (hplain c)
    | native f =>
      rw [Context.planCall, Context.planCall, hlength]
      split
      · have hreply := hhost g.ClosureAlike ClosureAlike.matches_of s.calls f args args' hargs
        rw [← hs.calls]
        dsimp only
        generalize host s.calls f args = reply at hreply
        generalize host s.calls f args' = reply' at hreply
        cases hreply with
        | value hv => exact .done (.value hv) hs.counted
        | call hf hargs => exact .last (.call hf hargs) hs.counted
      · exact .failed _ hs
    | _ => exact .failed _ hs
  | @function c c' hc =>
    rw [Context.planCall, Context.planCall, hlength, hc.params, hc.name]
    split
    · obtain ⟨p, hbody, hbody', hagrees⟩ := hc.body
      rw [hs.inner_eq c.env, hc.env, hbody, hbody']
      refine .completion (.executeAll hagrees) (hs.enter hc.toMatches hargs) (fun t t' ht => ?_)
        fun v v' t t' hv ht => .done (.value hv) ht
      exact .done (.value (.of_not_callable rfl)) ht
    · exact .failed _ hs

private theorem plans_read {n n' : Node} {x : Name} (hs : g.StateAlike s s')
    (hlocation : n.location = n'.location) (htable : g.table[n.key]? = g.table'[n'.key]?) :
    g.coupling.Plans (Context.plan ⟨globals, g.table, host⟩ (.read env n x) s)
      (Context.plan ⟨globals, g.table', host⟩ (.read env n' x) s') := by
  have hholder := hs.holder?_eq htable globals env host x
  rw [Context.plan, Context.plan]
  cases hi : Context.holder? ⟨globals, g.table, host⟩ env n x s.store with
  | none =>
    rw [Context.read_of_no_holder hi, Context.read_of_no_holder (hholder.symm.trans hi), hlocation]
    exact .failed _ hs
  | some i =>
    obtain ⟨v, hv, hread⟩ := Context.read_of_holder? hi
    obtain ⟨v', hv', hread'⟩ := Context.read_of_holder? (hholder.symm.trans hi)
    have hlookup := Frame.Rel.lookup (hs.frames i) x
    rw [hv, hv'] at hlookup
    rw [hread, hread']
    cases hlookup with
    | some hvalue => exact .done (.value hvalue) hs

private theorem plans_write {n n' : Node} {x : Name} (hs : g.StateAlike s s')
    (hlocation : n.location = n'.location) (htable : g.table[n.key]? = g.table'[n'.key]?)
    (hv : g.ValueAlike v v') :
    g.coupling.Plans (Context.plan ⟨globals, g.table, host⟩ (.write env n x v) s)
      (Context.plan ⟨globals, g.table', host⟩ (.write env n' x v') s') := by
  have hholder := hs.holder?_eq htable globals env host x
  rw [Context.plan, Context.plan]
  cases hi : Context.holder? ⟨globals, g.table, host⟩ env n x s.store with
  | none =>
    rw [Context.write_of_no_holder hi, Context.write_of_no_holder (hholder.symm.trans hi),
      hlocation]
    exact .failed _ hs
  | some i =>
    rw [Context.write_of_holder? hi, Context.write_of_holder? (hholder.symm.trans hi)]
    exact .done .written (hs.setIn hv i x)

/-- Runs of the same programs with other keys stay in step. -/
theorem coupling_kept (globals : Environment) (hhost : host.Uniform) :
    g.coupling.Kept ⟨globals, g.table, host⟩ ⟨globals, g.table', host⟩ := by
  intro task task' s s' htask hs
  cases htask with
  | evaluate h => exact plans_planExpr hs h
  | evaluateAll h => exact plans_planAll hs h
  | call hf hargs => exact plans_planCall hhost hs hf hargs _
  | execute h => exact plans_planStmt hs h
  | executeAll h => exact plans_planStmts hs h
  | executeLoop hc hbody => exact plans_planLoop hs hc hbody
  | read hlocation htable => exact plans_read hs hlocation htable
  | write hlocation htable hv => exact plans_write hs hlocation htable hv

end

end

end Rekeying

end Lox
