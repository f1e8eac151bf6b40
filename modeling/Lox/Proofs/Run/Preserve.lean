import Lox.Proofs.Run.Invariant

/-! Every task of a run keeps the invariant, so it holds of all that the run comes to. -/

namespace Lox

namespace Course

variable {r : Course} {w : World} {env : Environment} {v : Visit} {s : State}

/-- A name is declared in a frame that its scope has opened, or in one without an owner. -/
theorem FitsEnv.mem_scopeNames {home : Home} {p : Place} (h : r.FitsEnv w home p env v)
    {stmt : Stmt Node} (hsite : ⟨.stmt stmt, p⟩ ∈ r.sites home) {x : Name}
    (hx : stmt.declared? = some x) {i : Nat} {o : Stmt Node} (hi : env.head? = some i)
    (ho : w.owners[i]? = some (some o)) : x ∈ o.scopeNames := by
  cases home with
  | guest c =>
    rw [h.2.2 i hi] at ho
    cases ho
  | program =>
    have hlabels := h.2.1
    cases howners : p.owners with
    | nil =>
      rw [howners] at hlabels
      rw [hlabels i hi] at ho
      cases ho
    | cons o' outer =>
      rw [howners] at hlabels
      cases env with
      | nil => cases hi
      | cons j env =>
        cases hi
        rw [hlabels.1] at ho
        cases ho
        exact Site.declared_mem hsite hx howners

private theorem holds_define {x : Name} {a : Value} (hs : r.invariant.holds w s)
    (hname : ∀ i o, env.head? = some i → w.owners[i]? = some (some o) → x ∈ o.scopeNames)
    (ha : r.FitsValue (w.define env x a) a) :
    r.invariant.holds (w.define env x a) (s.define env x a) := by
  obtain ⟨hstore, hsound⟩ := hs
  refine ⟨?_, hsound.define hname ha⟩
  unfold World.define State.define
  rw [hstore]

theorem declared_define (hsound : r.Sound w) (x : Name) (a : Value) :
    Declared (w.define env x a) env (some x) := by
  intro y i hy hi hlength
  cases hy
  cases env with
  | nil => cases hi
  | cons j env =>
    cases hi
    unfold World.define at hlength ⊢
    rw [Store.define, World.binds_setIn _ (by rw [← hsound.size]; exact hlength)]
    exact .inl ⟨rfl, rfl⟩

private theorem keeps_read {n : Node} {x : Name} (htask : v.task = .read env n x)
    (hs : r.invariant.holds w s) : r.Keeps v w (r.ctx.plan (.read env n x) s) := by
  rw [Context.plan]
  cases hi : r.ctx.holder? env n x s.store with
  | none =>
    rw [Context.read_of_no_holder hi]
    exact trivial
  | some i =>
    obtain ⟨a, ha, ho⟩ := Context.read_of_holder? hi
    rw [ho]
    refine keeps_done hs ?_
    rw [htask]
    exact ⟨a, rfl, hs.2.values i x a (by rw [hs.1]; exact ha)⟩

private theorem keeps_write {n : Node} {x : Name} {a : Value} (htask : v.task = .write env n x a)
    (hs : r.invariant.holds w s) (ha : r.FitsValue w a) :
    r.Keeps v w (r.ctx.plan (.write env n x a) s) := by
  rw [Context.plan]
  cases hi : r.ctx.holder? env n x s.store with
  | none =>
    rw [Context.write_of_no_holder hi]
    exact trivial
  | some i =>
    have hbinds : w.store.binds i x := by
      rw [hs.1]
      exact Context.binds_of_holder? hi
    rw [Context.write_of_holder? hi]
    refine ⟨w.set i x a, World.le_set, ⟨?_, hs.2.set (fun o ho => ?_) ?_⟩, ?_⟩
    · unfold World.set
      rw [hs.1]
    · exact hs.2.names i o ho x hbinds
    · exact ha.mono World.le_set
    · rw [htask]
      exact trivial

/-- The state in which the body of a function starts, with its frame opened for the given owner. -/
theorem holds_enter {f : Closure} {args : List Value} {o : Option (Stmt Node)}
    (hs : r.invariant.holds w s)
    (hnames : ∀ x ∈ f.params, ∀ o', o = some o' → x ∈ o'.scopeNames)
    (hargs : ∀ a ∈ args, r.FitsValue w a) (hlength : args.length = f.params.length) :
    ∃ w', w ≤ w' ∧ r.invariant.holds w' (s.enter f args) ∧
      w'.owners[s.store.frames.size]? = some o ∧
      ∀ x ∈ f.params, w'.store.binds s.store.frames.size x := by
  obtain ⟨hstore, hsound⟩ := hs
  have hlabel : (w.openFrame o f.env).owners[s.store.frames.size]? = some o := by
    rw [← hstore]
    exact hsound.labelled_openFrame o
  have hnames' : ∀ x ∈ f.params, ∀ o',
      (w.openFrame o f.env).owners[s.store.frames.size]? = some (some o') → x ∈ o'.scopeNames := by
    intro x hx o' ho'
    rw [hlabel] at ho'
    exact hnames x hx o' (Option.some.inj ho')
  have hargs' : ∀ a ∈ args, r.FitsValue (w.openFrame o f.env) a :=
    fun a ha => (hargs a ha).mono World.le_openFrame
  obtain ⟨hle, hsound', hbound⟩ : _ ≤ _ ∧ r.Sound ((w.openFrame o f.env).defineAll
      (s.inner f.env) f.params args) ∧ _ := (hsound.openFrame o f.env).defineAll hnames' hargs'
  refine ⟨_, le_trans World.le_openFrame hle, ⟨?_, hsound'⟩, hlabel, ?_⟩
  · unfold World.defineAll World.openFrame State.enter State.inner
    rw [hstore]
  · exact hbound hlength (List.getElem?_eq_some_iff.mp hlabel).1

/-- The body of a function that is called runs as code of the place of the function. -/
theorem fits_body {f : Closure} {args : List Value} {location : Option Location}
    (htask : v.task = .call (.function f) args location) (hvisit : r.Visits v)
    (hs : r.invariant.holds w v.state) (hf : r.FitsClosure w f)
    (hargs : ∀ a ∈ args, r.FitsValue w a) (hlength : args.length = f.params.length) :
    ∃ w', w ≤ w' ∧ r.invariant.holds w' (v.state.enter f args) ∧
      ∀ v', r.ctx.Calls v v' →
        r.FitsCode w' (v.state.inner f.env) v' fun p => Program.sites p f.body := by
  cases hf with
  | @program u n p x params body env hu hsites henv =>
    have hnames : ∀ y ∈ params, ∀ o',
        some (Stmt.funDecl n x params body) = some o' → y ∈ o'.scopeNames := by
      intro y hy o' ho'
      cases ho'
      exact List.mem_append_left _ hy
    obtain ⟨w', hw, hs', hlabel, hbound⟩ := holds_enter hs hnames hargs hlength
    obtain ⟨hactive, hlabels, hsettled⟩ := henv.mono hw
    refine ⟨w', hw, hs', fun v' hcall => ?_⟩
    refine ⟨.program, p.function n x params body, hsites, ⟨?_, ⟨hlabel, hlabels⟩,
      ⟨hbound, hsettled⟩⟩, fun _ _ names outer hnames i y hi hy => ?_⟩
    · exact .call hactive hu hvisit htask hlength (.single hcall)
    · cases hnames
      cases hi
      rw [hs'.1] at hy
      exact State.mem_params_of_enter hy
  | @guest _ c p hguest hcalled hsites =>
    have hnames : ∀ y ∈ f.params, ∀ o', (none : Option (Stmt Node)) = some o' →
        y ∈ o'.scopeNames := fun y hy o' ho' => by cases ho'
    obtain ⟨w', hw, hs', hlabel, -⟩ := holds_enter hs hnames hargs hlength
    have hcalled' : r.Called c := by
      rcases hcalled with rfl | hcalled
      · exact ⟨v, args, location, hvisit, htask⟩
      · exact hcalled
    refine ⟨w', hw, hs', fun v' _ => ?_⟩
    refine ⟨.guest c, p, hsites, ⟨hguest, hcalled', fun i hi => ?_⟩, fun hhome => by cases hhome⟩
    cases hi
    exact hlabel

private theorem keeps_planCall {f : Value} {args : List Value} {location : Option Location}
    (hhost : r.ctx.host.Faithful) (htask : v.task = .call f args location)
    (hvisit : r.Visits v) (hs : r.invariant.holds w v.state) (hf : r.FitsValue w f)
    (hargs : ∀ a ∈ args, r.FitsValue w a) :
    r.Keeps v w (r.ctx.planCall args location v.state f) := by
  have hanswer (w' : World) (b : Value) (hb : r.FitsValue w' b) :
      r.FitsAnswer w' v.task (.value b) := by
    rw [htask]
    exact ⟨b, rfl, hb⟩
  have hlast (w' : World) (a : Answer) (ha : ∃ b, a = .value b ∧ r.FitsValue w' b) :
      r.FitsAnswer w' v.task a := by
    rw [htask]
    exact ha
  cases f with
  | number | string | bool | nil => exact trivial
  | native f =>
    rw [Context.planCall]
    have hreply := hhost v.state.calls f args
    have hcounted : r.invariant.holds w v.state.counted := hs
    split
    · cases ho : r.ctx.host v.state.calls f args with
      | value b =>
        rw [ho] at hreply
        exact keeps_done hcounted (hanswer w b fun c hc => hargs b (hreply c hc) c hc)
      | call callee args' location' =>
        rw [ho] at hreply
        have hgiven (b : Value) (hb : b ∈ callee :: args') : r.FitsValue w b :=
          fun c hc => hargs b (hreply b hb c hc) c hc
        refine keeps_last hcounted (fun _ => ⟨hgiven callee List.mem_cons_self, ?_⟩) hlast
        exact fun b hb => hgiven b (List.mem_cons_of_mem _ hb)
    · exact trivial
  | function f =>
    rw [Context.planCall]
    split
    · rename_i hlength
      obtain ⟨w', hw, hs', hfits⟩ := fits_body htask hvisit hs (hf f rfl) hargs hlength
      intro hcall
      refine ⟨w', hw, hs', hfits _ hcall, fun w'' _ a t _ ht ha => ?_⟩
      obtain ⟨c, rfl, hc⟩ := ha
      cases c with
      | normal => exact keeps_done ht (hanswer w'' _ (FitsValue.of_callable rfl))
      | returned b => exact keeps_done ht (hanswer w'' b hc)
    · exact trivial

/-- The body of a block runs in a frame of its own. -/
theorem fits_block {n : Node} {body : Program Node} (htask : v.task = .execute env (.block n body))
    (hs : r.invariant.holds w v.state)
    (h : r.FitsCode w env v fun p => (Stmt.block n body).sites p) :
    ∃ w', w ≤ w' ∧ r.invariant.holds w' (v.state.openFrame env) ∧
      ∀ v', r.ctx.Calls v v' →
        r.FitsCode w' (v.state.inner env) v' fun p => Program.sites p body := by
  obtain ⟨home, p, hsites, henv, -⟩ := h
  obtain ⟨hstore, hsound⟩ := hs
  have hlabel : (w.openFrame (home.owner (.block n body)) env).owners[v.state.store.frames.size]? =
      some (home.owner (.block n body)) := by
    rw [← hstore]
    exact hsound.labelled_openFrame _
  have hbody : Program.sites (p.block n body) body ⊆ r.sites home :=
    (List.cons_subset.mp hsites).2
  refine ⟨w.openFrame (home.owner (.block n body)) env, World.le_openFrame,
    ⟨?_, hsound.openFrame _ env⟩, fun v' hcall => ?_⟩
  · unfold World.openFrame State.openFrame
    rw [hstore]
  · refine ⟨home, p.block n body, hbody, ?_, fun _ _ names outer hnames i x hi hx => ?_⟩
    · cases home with
      | guest c =>
        refine ⟨henv.1, henv.2.1, fun i hi => ?_⟩
        cases hi
        exact hlabel
      | program =>
        obtain ⟨hactive, hlabels, hsettled⟩ := henv
        refine ⟨.block hactive htask (.single hcall),
          ⟨hlabel, hlabels.mono World.le_openFrame⟩, ?_⟩
        exact ⟨fun x hx => absurd hx List.not_mem_nil, hsettled.mono World.le_openFrame⟩
    · -- the frame is new
      cases hi
      unfold World.openFrame at hx
      rw [World.binds_child, hstore] at hx
      exact absurd hx (World.not_binds_of_size_le _ (Nat.le_refl _))

/-- A variable is defined where it is declared. -/
theorem holds_declared {stmt : Stmt Node} {x : Name} {a : Value} (hs : r.invariant.holds w s)
    (h : r.FitsCode w env v fun p => stmt.sites p) (hx : stmt.declared? = some x)
    (ha : r.FitsValue (w.define env x a) a) :
    r.invariant.holds (w.define env x a) (s.define env x a) := by
  obtain ⟨home, p, hsites, henv, -⟩ := h
  exact holds_define hs (fun i o hi ho => henv.mem_scopeNames (hsites stmt.site_mem) hx hi ho) ha

/-- The function that a declaration makes fits once its name is bound. -/
theorem fits_closure {n : Node} {x : Name} {params : List Name} {body : Program Node}
    (htask : v.task = .execute env (.funDecl n x params body)) (hsound : r.Sound w)
    (h : r.FitsCode w env v fun p => (Stmt.funDecl n x params body).sites p) :
    r.FitsClosure (w.define env x (.function (v.state.closure x params body env)))
      (v.state.closure x params body env) := by
  obtain ⟨home, p, hsites, henv, -⟩ := h
  have hbody : Program.sites (p.function n x params body) body ⊆ r.sites home :=
    (List.cons_subset.mp hsites).2
  cases home with
  | guest c => exact .guest henv.1 (.inr henv.2.1) hbody
  | program =>
    exact .program htask hbody ((henv.mono World.le_define).after (declared_define hsound x _))

/-- What declares no name has nothing to bind when it completes. -/
theorem fitsAnswer_of_undeclared {stmt : Stmt Node} {c : Completion}
    (htask : v.task = .execute env stmt) (hd : stmt.declared? = none)
    (hc : r.FitsCompletion w c) : r.FitsAnswer w v.task (.completion c) := by
  rw [htask]
  refine ⟨c, rfl, hc, fun _ => ?_⟩
  rw [hd]
  intro x i hx
  cases hx

/-- A branch runs at its own place, once the condition has been evaluated. -/
theorem keeps_ifElse {n : Node} {c : Expr Node} {t : Stmt Node} {e : Option (Stmt Node)}
    (htask : v.task = .execute env (.ifElse n c t e)) (hs : r.invariant.holds w v.state)
    (h : r.FitsCode w env v fun p => (Stmt.ifElse n c t e).sites p) :
    r.Keeps v w (Context.planStmt env v.state (.ifElse n c t e)) := by
  have hbranch (w' : World) (a : Answer) {t : Stmt Node}
      (ha : r.FitsAnswer w' (.execute env t) a) : r.FitsAnswer w' v.task a := by
    obtain ⟨c, rfl, hc, -⟩ := ha
    exact fitsAnswer_of_undeclared htask rfl hc
  have hlater {w' : World} (hw : w ≤ w')
      (hgrows : w.store.Grows (Task.declares (.evaluate env c)) w'.store) :
      r.FitsCode w' env v fun p => (Stmt.ifElse n c t e).sites p :=
    h.later hw hs.2 hgrows fun _ _ => id
  cases e with
  | none =>
    refine keeps_value hs (fun _ _ => id) (fun hcall => h.part (fun p => ?_) (.single hcall))
      fun w₁ hw hgrows b u hu _ => ?_
    · exact List.subset_cons_of_subset _ (List.subset_append_left _ _)
    · split
      · refine keeps_last hu (fun hcall => ?_) fun w' a => hbranch w' a
        refine (hlater hw hgrows).part (fun p => ?_) (.single hcall)
        exact List.subset_cons_of_subset _ (List.subset_append_right _ _)
      · exact keeps_done hu (fitsAnswer_of_undeclared htask rfl trivial)
  | some e =>
    refine keeps_value hs (fun _ _ => id) (fun hcall => h.part (fun p => ?_) (.single hcall))
      fun w₁ hw hgrows b u hu _ => ?_
    · rw [Stmt.sites, List.append_assoc]
      exact List.subset_cons_of_subset _ (List.subset_append_left _ _)
    · split
      · refine keeps_last hu (fun hcall => ?_) fun w' a => hbranch w' a
        refine (hlater hw hgrows).part (fun p => ?_) (.single hcall)
        rw [Stmt.sites, List.append_assoc]
        exact List.subset_cons_of_subset _
          (List.subset_append_of_subset_right _ (List.subset_append_left _ _))
      · refine keeps_last hu (fun hcall => ?_) fun w' a => hbranch w' a
        obtain ⟨home, p, hsites, henv, hexact⟩ := hlater hw hgrows
        refine ⟨home, p.besides t, List.Subset.trans ?_ hsites, ?_, hexact⟩
        · exact List.subset_cons_of_subset _ (List.subset_append_right _ _)
        · exact (henv.trans (.single hcall)).moved rfl rfl

private theorem keeps_planStmt {stmt : Stmt Node} (htask : v.task = .execute env stmt)
    (hs : r.invariant.holds w v.state) (h : r.FitsCode w env v fun p => stmt.sites p) :
    r.Keeps v w (Context.planStmt env v.state stmt) := by
  have hnormal {w' : World} (hdeclared : Declared w' env stmt.declared?) :
      r.FitsAnswer w' v.task (.completion .normal) := by
    rw [htask]
    exact ⟨.normal, rfl, trivial, fun _ => hdeclared⟩
  have hpart {task : Task} {t : State} {code : Place → List Site}
      (hcode : ∀ p, code p ⊆ stmt.sites p) (hcall : r.ctx.Calls v ⟨v.work - 1, task, t⟩) :
      r.FitsCode w env ⟨v.work - 1, task, t⟩ code :=
    h.part hcode (.single hcall)
  cases stmt with
  | expression n e | print n e =>
    refine keeps_value hs (fun _ _ => id) (hpart fun p => List.subset_cons_self _ _)
      fun w₁ _ _ b t ht _ => ?_
    exact keeps_done ht (fitsAnswer_of_undeclared htask rfl trivial)
  | returnStmt n e =>
    cases e with
    | none =>
      exact keeps_done hs (fitsAnswer_of_undeclared htask rfl (FitsValue.of_callable rfl))
    | some e =>
      refine keeps_value hs (fun _ _ => id) (hpart fun p => List.subset_cons_self _ _)
        fun w₁ _ _ b t ht hb => ?_
      exact keeps_done ht (fitsAnswer_of_undeclared htask rfl hb)
  | whileLoop n c body =>
    refine keeps_last hs (fun hcall => ⟨n, hpart (fun p => List.Subset.refl _) hcall⟩)
      fun w' a ha => ?_
    obtain ⟨c, rfl, hc⟩ := ha
    exact fitsAnswer_of_undeclared htask rfl hc
  | block n body =>
    obtain ⟨w', hw, hs', hfits⟩ := fits_block htask hs h
    intro hcall
    refine ⟨w', hw, hs', hfits _ hcall, fun w'' _ a t _ ht ha => ?_⟩
    obtain ⟨c, rfl, hc⟩ := ha
    exact keeps_done ht (fitsAnswer_of_undeclared htask rfl hc)
  | ifElse n c t e => exact keeps_ifElse htask hs h
  | varDecl n x e =>
    cases e with
    | none =>
      have hs' := holds_declared hs h rfl (FitsValue.of_callable (a := .nil) rfl)
      exact ⟨_, World.le_define, hs', hnormal (declared_define hs.2 x .nil)⟩
    | some e =>
      refine keeps_value hs (fun _ _ => id) (fun hcall => ?_) fun w₁ hw hgrows b t ht hb => ?_
      · obtain ⟨home, p, hsites, henv, hexact⟩ := h
        refine ⟨home, p.initializer n x, (List.cons_subset.mp hsites).2, ?_, hexact⟩
        exact (henv.trans (.single hcall)).moved rfl rfl
      · have hlater := h.later hw hs.2 hgrows fun _ _ => id
        have hs' := holds_declared ht hlater rfl (hb.mono World.le_define)
        exact ⟨_, World.le_define, hs', hnormal (declared_define ht.2 x b)⟩
  | funDecl n x params body =>
    have hvalue : r.FitsValue
        (w.define env x (.function (v.state.closure x params body env)))
        (.function (v.state.closure x params body env)) := by
      intro c hc
      cases hc
      exact fits_closure htask hs.2 h
    have hs' : r.invariant.holds w { v.state with nextFunction := v.state.nextFunction + 1 } := hs
    exact ⟨_, World.le_define, holds_declared hs' h rfl hvalue,
      hnormal (declared_define hs.2 x _)⟩

private theorem keeps_planStmts {stmts : Program Node} (htask : v.task = .executeAll env stmts)
    (hs : r.invariant.holds w v.state) (h : r.FitsCode w env v fun p => Program.sites p stmts) :
    r.Keeps v w (Context.planStmts env v.state stmts) := by
  have hanswer (w' : World) {c : Completion} (hc : r.FitsCompletion w' c) :
      r.FitsAnswer w' v.task (.completion c) := by
    rw [htask]
    exact ⟨c, rfl, hc⟩
  cases stmts with
  | nil => exact keeps_done hs (hanswer w trivial)
  | cons stmt rest =>
    refine keeps_sub hs (fun hcall => ?_) fun w₁ hw hgrows a t ht ha => ?_
    · exact h.part (fun p => List.subset_append_left _ _) (.single hcall)
    · obtain ⟨c, rfl, hc, hdeclared⟩ := ha
      cases c with
      | returned b => exact keeps_done ht (hanswer w₁ hc)
      | normal =>
        refine keeps_last ht (fun hcall => ?_) fun w₂ a ha => ?_
        · obtain ⟨home, p, hsites, henv, hexact⟩ := h
          obtain ⟨hstmt, hrest⟩ := List.append_subset.mp hsites
          refine ⟨home, p.after stmt, hrest, ?_, ?_⟩
          · exact ((henv.mono hw).trans (.single hcall)).after (hdeclared rfl)
          · refine hexact.after henv hs.2 hgrows fun hhome hscoped => ?_
            subst hhome
            exact stmt.ownNames_eq (Site.isScoped hscoped (hstmt stmt.site_mem))
        · obtain ⟨c, rfl, hc⟩ := ha
          exact hanswer w₂ hc

/-- The body of a loop declares nothing, so that the loop can go on at the same place. -/
theorem fits_loop {n : Node} {c : Expr Node} {body : Stmt Node} {w' : World}
    (h : r.FitsCode w env v fun p => (Stmt.whileLoop n c body).sites p) (hw : w ≤ w')
    (hsound : r.Sound w) (hgrows : w.store.Grows (Task.declares (.execute env body)) w'.store) :
    r.FitsCode w' env v fun p => (Stmt.whileLoop n c body).sites p := by
  obtain ⟨home, p, hsites, henv, hexact⟩ := h
  refine ⟨home, p, hsites, henv.mono hw, hexact.same henv hsound hgrows ?_⟩
  intro hhome hscoped i x hx
  subst hhome
  have hloop := Site.isScoped hscoped (hsites (Stmt.site_mem _))
  have hmem : x ∈ body.ownNames := hx.2
  rw [body.ownNames_eq hloop.2, hloop.1] at hmem
  exact absurd hmem List.not_mem_nil

private theorem keeps_planLoop {n : Node} {c : Expr Node} {body : Stmt Node}
    (htask : v.task = .executeLoop env c body) (hs : r.invariant.holds w s)
    (h : r.FitsCode w env v fun p => (Stmt.whileLoop n c body).sites p) :
    r.Keeps v w (Context.planLoop env c body s) := by
  have hanswer (w' : World) {c : Completion} (hc : r.FitsCompletion w' c) :
      r.FitsAnswer w' v.task (.completion c) := by
    rw [htask]
    exact ⟨c, rfl, hc⟩
  refine keeps_value hs (fun _ _ => id) (fun hcall => ?_) fun w₁ hw hgrows b t ht _ => ?_
  · refine h.part (fun p => ?_) (.single hcall)
    exact List.subset_cons_of_subset _ (List.subset_append_left _ _)
  · have hbody := h.later hw hs.2 hgrows fun _ _ => id
    split
    · refine keeps_sub ht (fun hcall => ?_) fun w₂ hw₂ hgrows₂ a u hu ha => ?_
      · refine hbody.part (fun p => ?_) (.single hcall)
        exact List.subset_cons_of_subset _ (List.subset_append_right _ _)
      · obtain ⟨d, rfl, hd, -⟩ := ha
        cases d with
        | returned b => exact keeps_done hu (hanswer w₂ hd)
        | normal =>
          refine keeps_last hu (fun hcall => ⟨n, ?_⟩) fun w₃ a ha => ?_
          · have hloop := fits_loop hbody hw₂ ht.2 hgrows₂
            exact hloop.part (fun p => List.Subset.refl _) (.single hcall)
          · obtain ⟨d, rfl, hd⟩ := ha
            exact hanswer w₃ hd
    · exact keeps_done ht (hanswer w₁ trivial)

/-- Every task of a run keeps the invariant, if the host makes no functions. -/
theorem preserves (hhost : r.ctx.host.Faithful) : r.ctx.Preserves r.invariant r.root := by
  intro v w hvisit hs h
  obtain ⟨work, task, s⟩ := v
  cases task with
  | evaluate env e => exact keeps_planExpr rfl hs h
  | evaluateAll env es => exact keeps_planAll rfl hs h
  | call f args location => exact keeps_planCall hhost rfl hvisit hs h.1 h.2
  | execute env stmt => exact keeps_planStmt rfl hs h
  | executeAll env stmts => exact keeps_planStmts rfl hs h
  | executeLoop env c body =>
    obtain ⟨n, h⟩ := h
    exact keeps_planLoop rfl hs h
  | read env n x => exact keeps_read rfl hs
  | write env n x a => exact keeps_write rfl hs h.1

end Course

end Lox
