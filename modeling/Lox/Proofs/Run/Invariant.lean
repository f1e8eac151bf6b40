import Lox.Proofs.Run.Fits

/-! What the tasks of a run start with and what they answer. -/

namespace Lox

/-- The host makes no functions of programs: it passes on what it is given. -/
def Host.Faithful (host : Host) : Prop :=
  ∀ calls f args, match host calls f args with
    | .value v => ∀ c, v = .function c → v ∈ args
    | .call callee args' _ => ∀ v ∈ callee :: args', ∀ c, v = .function c → v ∈ args

theorem Host.faithful_standard (clock : Clock) : (Host.standard clock).Faithful := by
  intro calls f args
  by_cases hf : f = Native.clock
  · simp [Host.standard, hf]
  · simp [Host.standard, hf]

namespace Course

variable (r : Course)

/-- The environment is one for a place where all of the code stands, and to which a run has come. -/
def FitsCode (w : World) (env : Environment) (v : Visit) (code : Place → List Site) : Prop :=
  ∃ home p, code p ⊆ r.sites home ∧ r.FitsEnv w home p env v ∧ r.Exact w home p env

def FitsTask (w : World) (v : Visit) : Task → Prop
  | .evaluate env e => r.FitsCode w env v fun p => e.sites p
  | .evaluateAll env es => r.FitsCode w env v fun p => Expr.sitesAll p es
  | .call f args _ => r.FitsValue w f ∧ ∀ a ∈ args, r.FitsValue w a
  | .execute env s => r.FitsCode w env v fun p => s.sites p
  | .executeAll env stmts => r.FitsCode w env v fun p => Program.sites p stmts
  | .executeLoop env c body => ∃ n, r.FitsCode w env v fun p => (Stmt.whileLoop n c body).sites p
  | .read env n x => r.FitsCode w env v fun p => [⟨.expr (.reference n x), p⟩]
  | .write env n x a => r.FitsValue w a ∧ ∃ e, r.FitsCode w env v fun p =>
    [⟨.expr (.assign n x e), p⟩]

/-- The name of a declaration is bound in the innermost frame. -/
def Declared (w : World) (env : Environment) (name : Option Name) : Prop :=
  ∀ x i, name = some x → env.head? = some i → i < w.owners.length → w.store.binds i x

def FitsAnswer (w : World) : Task → Answer → Prop
  | .evaluate .., a | .call .., a | .read .., a => ∃ b, a = .value b ∧ r.FitsValue w b
  | .evaluateAll .., a => ∃ bs, a = .values bs ∧ ∀ b ∈ bs, r.FitsValue w b
  | .execute env s, a => ∃ c, a = .completion c ∧ r.FitsCompletion w c ∧
    (c = .normal → Declared w env s.declared?)
  | .executeAll .., a | .executeLoop .., a => ∃ c, a = .completion c ∧ r.FitsCompletion w c
  | .write .., _ => True

def invariant : Context.Invariant World where
  holds w s := w.store = s.store ∧ r.Sound w
  fits w v := r.FitsTask w v v.task
  answers w v a := r.FitsAnswer w v.task a

variable {r} {w w' : World} {env : Environment} {v v' : Visit}

/-- Part of the code, in a task inside the one that runs it. -/
theorem FitsCode.part {code code' : Place → List Site} (h : r.FitsCode w env v code)
    (hcode : ∀ p, code' p ⊆ code p) (hreach : r.ctx.Reaches v v') : r.FitsCode w env v' code' := by
  obtain ⟨home, p, hsites, henv, hexact⟩ := h
  exact ⟨home, p, List.Subset.trans (hcode p) hsites, henv.trans hreach, hexact⟩

/-- The code after a task that declares nothing. -/
theorem FitsCode.later {code : Place → List Site} (h : r.FitsCode w env v code) (hw : w ≤ w')
    (hsound : r.Sound w) {task : Task} (hgrows : w.store.Grows task.declares w'.store)
    (hdeclares : ∀ i x, ¬ task.declares i x) : r.FitsCode w' env v code := by
  obtain ⟨home, p, hsites, henv, hexact⟩ := h
  exact ⟨home, p, hsites, henv.mono hw, hexact.same henv hsound hgrows fun _ _ => hdeclares⟩

/-- The plan of a task keeps the invariant from a world on. -/
abbrev Keeps (r : Course) (v : Visit) (w : World) (plan : Plan) : Prop :=
  Plan.Keeps r.invariant (r.ctx.Calls v) (r.ctx.run (v.work - 1)) (v.work - 1)
    (fun w' => r.FitsAnswer w' v.task) w plan

section

variable {task : Task} {s t : State} {a : Answer}

theorem keeps_done (hs : r.invariant.holds w s) (ha : r.FitsAnswer w v.task a) :
    r.Keeps v w (.done a s) :=
  ⟨w, le_refl w, hs, ha⟩

theorem keeps_sub {next : Answer → State → Plan} (hs : r.invariant.holds w s)
    (hfits : r.ctx.Calls v ⟨v.work - 1, task, s⟩ → r.FitsTask w ⟨v.work - 1, task, s⟩ task)
    (hnext : ∀ w', w ≤ w' → w.store.Grows task.declares w'.store → ∀ a t,
      r.invariant.holds w' t → r.FitsAnswer w' task a → r.Keeps v w' (next a t)) :
    r.Keeps v w (.sub task s next) := by
  intro hcall
  refine ⟨w, le_refl w, hs, hfits hcall, fun w' hw a t ho ht ha => hnext w' hw ?_ a t ht ha⟩
  rw [hs.1, ht.1]
  exact Context.run_grows (congrArg Outcome.state? ho)

/-- The answer of the last task is the answer of the plan. -/
theorem keeps_last (hs : r.invariant.holds w s)
    (hfits : r.ctx.Calls v ⟨v.work - 1, task, s⟩ → r.FitsTask w ⟨v.work - 1, task, s⟩ task)
    (hanswer : ∀ w' a, r.FitsAnswer w' task a → r.FitsAnswer w' v.task a) :
    r.Keeps v w (.last task s) :=
  keeps_sub hs hfits fun _ _ _ _ _ ht ha => keeps_done ht (hanswer _ _ ha)

theorem keeps_value {next : Value → State → Plan} (hs : r.invariant.holds w s)
    (hvalue : ∀ w' a, r.FitsAnswer w' task a → ∃ b, a = .value b ∧ r.FitsValue w' b)
    (hfits : r.ctx.Calls v ⟨v.work - 1, task, s⟩ → r.FitsTask w ⟨v.work - 1, task, s⟩ task)
    (hnext : ∀ w', w ≤ w' → w.store.Grows task.declares w'.store → ∀ b t,
      r.invariant.holds w' t → r.FitsValue w' b → r.Keeps v w' (next b t)) :
    r.Keeps v w (.value task s next) := by
  refine keeps_sub hs hfits fun w' hw hgrows a t ht ha => ?_
  obtain ⟨b, rfl, hb⟩ := hvalue w' a ha
  exact hnext w' hw hgrows b t ht hb

theorem keeps_values {es : List (Expr Node)} {next : List Value → State → Plan}
    (hs : r.invariant.holds w s) (hfits : r.ctx.Calls v ⟨v.work - 1, .evaluateAll env es, s⟩ →
      r.FitsTask w ⟨v.work - 1, .evaluateAll env es, s⟩ (.evaluateAll env es))
    (hnext : ∀ w', w ≤ w' → ∀ bs t, r.invariant.holds w' t → (∀ b ∈ bs, r.FitsValue w' b) →
      r.Keeps v w' (next bs t)) :
    r.Keeps v w (.values (.evaluateAll env es) s next) := by
  refine keeps_sub hs hfits fun w' hw _ a t ht ha => ?_
  obtain ⟨bs, rfl, hbs⟩ := ha
  exact hnext w' hw bs t ht hbs

/-- An operator leaves the state as it is and makes no function. -/
theorem keeps_operator {m : Eval Value} (hs : r.invariant.holds w s)
    (hm : ∀ b t, m s = .done b t → t = s ∧ b.callable = false)
    (hanswer : ∀ b, r.FitsValue w b → r.FitsAnswer w v.task (.value b)) :
    r.Keeps v w (.finish ((m s).map .value)) := by
  cases ho : m s with
  | failed e t => exact trivial
  | exhausted => exact trivial
  | done b t =>
    obtain ⟨rfl, hb⟩ := hm b t ho
    exact keeps_done hs (hanswer b (FitsValue.of_callable hb))

end

end Course

namespace Course

variable {r : Course} {w : World} {env : Environment} {v : Visit} {s : State}

theorem keeps_planExpr {e : Expr Node} (htask : v.task = .evaluate env e)
    (hs : r.invariant.holds w s) (h : r.FitsCode w env v fun p => e.sites p) :
    r.Keeps v w (Context.planExpr env s e) := by
  have hanswer (w' : World) (b : Value) (hb : r.FitsValue w' b) :
      r.FitsAnswer w' v.task (.value b) := by
    rw [htask]
    exact ⟨b, rfl, hb⟩
  have hlast (w' : World) (a : Answer) (ha : ∃ b, a = .value b ∧ r.FitsValue w' b) :
      r.FitsAnswer w' v.task a := by
    rw [htask]
    exact ha
  -- a task inside this one at the same place, from the start and after another one
  have hpart {task : Task} {t : State} {code : Place → List Site}
      (hcode : ∀ p, code p ⊆ e.sites p) (hcall : r.ctx.Calls v ⟨v.work - 1, task, t⟩) :
      r.FitsCode w env ⟨v.work - 1, task, t⟩ code :=
    h.part hcode (.single hcall)
  have hlater {w' : World} {e' : Expr Node} (hw : w ≤ w')
      (hgrows : w.store.Grows (Task.declares (.evaluate env e')) w'.store) {task : Task} {t : State}
      {code : Place → List Site} (hcode : ∀ p, code p ⊆ e.sites p)
      (hcall : r.ctx.Calls v ⟨v.work - 1, task, t⟩) :
      r.FitsCode w' env ⟨v.work - 1, task, t⟩ code :=
    (h.later hw hs.2 hgrows fun _ _ => id).part hcode (.single hcall)
  cases e with
  | literal n l =>
    refine keeps_done hs (hanswer w _ (FitsValue.of_callable ?_))
    cases l <;> rfl
  | grouping n e => exact keeps_last hs (hpart fun p => List.subset_cons_self _ _) hlast
  | reference n x => exact keeps_last hs (hpart fun p => List.Subset.refl _) hlast
  | assign n x e =>
    refine keeps_value hs (fun _ _ => id) (hpart fun p => List.subset_cons_self _ _)
      fun w₁ hw hgrows b t ht hb => ?_
    refine keeps_sub ht (fun hcall => ⟨hb, e, hlater hw hgrows ?_ hcall⟩)
      fun w₂ hw₂ _ _ u hu _ => ?_
    · intro p site hsite
      rw [List.mem_singleton.mp hsite]
      exact List.mem_cons_self
    · exact keeps_done hu (hanswer w₂ b (hb.mono hw₂))
  | logical n l op e =>
    refine keeps_value hs (fun _ _ => id) (hpart fun p => ?_) fun w₁ hw hgrows b t ht hb => ?_
    · exact List.subset_cons_of_subset _ (List.subset_append_left _ _)
    · split
      · exact keeps_done ht (hanswer w₁ b hb)
      · refine keeps_last ht (hlater hw hgrows fun p => ?_) hlast
        exact List.subset_cons_of_subset _ (List.subset_append_right _ _)
  | unary n op e =>
    refine keeps_value hs (fun _ _ => id) (hpart fun p => List.subset_cons_self _ _)
      fun w₁ _ _ b t ht _ => ?_
    exact keeps_operator ht (fun _ _ => UnaryOp.apply_done) (hanswer w₁)
  | binary n l op e =>
    refine keeps_value hs (fun _ _ => id) (hpart fun p => ?_) fun w₁ hw hgrows b t ht _ => ?_
    · exact List.subset_cons_of_subset _ (List.subset_append_left _ _)
    · refine keeps_value ht (fun _ _ => id) (hlater hw hgrows fun p => ?_)
        fun w₂ _ _ b' u hu _ => ?_
      · exact List.subset_cons_of_subset _ (List.subset_append_right _ _)
      · exact keeps_operator hu (fun _ _ => BinaryOp.apply_done) (hanswer w₂)
  | call n c args =>
    refine keeps_value hs (fun _ _ => id) (hpart fun p => ?_) fun w₁ hw hgrows f t ht hf => ?_
    · exact List.subset_cons_of_subset _ (List.subset_append_left _ _)
    · refine keeps_values ht (hlater hw hgrows fun p => ?_) fun w₂ hw₂ bs u hu hbs => ?_
      · exact List.subset_cons_of_subset _ (List.subset_append_right _ _)
      · exact keeps_last hu (fun _ => ⟨hf.mono hw₂, hbs⟩) hlast

theorem keeps_planAll {es : List (Expr Node)} (htask : v.task = .evaluateAll env es)
    (hs : r.invariant.holds w s) (h : r.FitsCode w env v fun p => Expr.sitesAll p es) :
    r.Keeps v w (Context.planAll env s es) := by
  have hanswer (w' : World) (bs : List Value) (hbs : ∀ b ∈ bs, r.FitsValue w' b) :
      r.FitsAnswer w' v.task (.values bs) := by
    rw [htask]
    exact ⟨bs, rfl, hbs⟩
  cases es with
  | nil => exact keeps_done hs (hanswer w [] fun b hb => absurd hb List.not_mem_nil)
  | cons e rest =>
    refine keeps_value hs (fun _ _ => id) (fun hcall => ?_) fun w₁ hw hgrows b t ht hb => ?_
    · exact h.part (fun p => List.subset_append_left _ _) (.single hcall)
    · refine keeps_values ht (fun hcall => ?_) fun w₂ hw₂ bs u hu hbs => ?_
      · have hlater := h.later hw hs.2 hgrows fun _ _ => id
        exact hlater.part (fun p => List.subset_append_right _ _) (.single hcall)
      · refine keeps_done hu (hanswer w₂ _ fun b' hb' => ?_)
        rcases List.mem_cons.mp hb' with rfl | hb'
        · exact hb.mono hw₂
        · exact hbs b' hb'

end Course

end Lox
