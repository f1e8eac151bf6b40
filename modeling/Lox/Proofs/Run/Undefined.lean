import Lox.Proofs.Resolution.Clean
import Lox.Proofs.Resolution.Parsed
import Lox.Proofs.Run.Layers
import Lox.Proofs.Run.Order
import Lox.Proofs.Run.Origin

/-! What a program of which the resolver reports nothing can find undefined in a run: only what is
declared by a statement that the run has still ahead of it. -/

namespace Lox

theorem Store.holder?_isSome {s : Store} {x : Name} {env : Environment} :
    (s.holder? x env).isSome ↔ ∃ i ∈ env, s.binds i x := by
  induction env with
  | nil => simp [holder?]
  | cons i env ih =>
    rw [holder?]
    split
    · simp [*]
    · rw [ih]
      simp [*]

private theorem Bound.get {s : Store} {settled : List (List Name)} {env : Environment}
    (h : Bound s settled env) {d : Nat} {names : List Name} (hnames : settled[d]? = some names)
    {i : Nat} {outer : Environment} (hdrop : env.drop d = i :: outer) {x : Name} (hx : x ∈ names) :
    s.binds i x := by
  induction settled generalizing env d with
  | nil => cases hnames
  | cons names' settled ih =>
    cases env with
    | nil => exact h.elim
    | cons j env =>
      cases d with
      | zero =>
        cases hnames
        cases hdrop
        exact h.1 x hx
      | succ d => exact ih h.2 hnames hdrop

namespace Context

variable {ctx : Context}

private theorem run_declaration {env : Environment} {stmt : Stmt Node} {x : Name}
    (hx : stmt.declared? = some x) {work : Nat} {s t : State} {a : Answer}
    (ho : ctx.run work (.execute env stmt) s = .done a t) : a = .completion .normal := by
  cases work with
  | zero => cases ho
  | succ work =>
    rw [run_succ] at ho
    cases stmt with
    | funDecl n y params body => cases ho; rfl
    | varDecl n y e =>
      cases e with
      | none => cases ho; rfl
      | some e =>
        rw [plan, planStmt, Plan.value, Plan.run] at ho
        cases hr : ctx.run work (.evaluate env e) s with
        | failed e u => rw [hr] at ho; cases ho
        | exhausted => rw [hr] at ho; cases ho
        | done b u =>
          rw [hr] at ho
          cases b <;> cases ho
          rfl
    | _ => cases hx

end Context

namespace Course

variable {r : Course}

theorem Before.binds {u v : Visit} (h : r.Before u v) (hhost : r.ctx.host.Faithful)
    (hglobals : ∀ i ∈ r.ctx.globals, i < r.start.store.frames.size) {i : Nat} {outer : Environment}
    {declaration : Stmt Node} (htask : u.task = .execute (i :: outer) declaration) {x : Name}
    (hx : declaration.declared? = some x) : v.state.store.binds i x := by
  obtain ⟨a, t, ho, hwithin⟩ := h.within
  obtain ⟨w, -, hs, hfits⟩ := Visits.fits h.visits hhost hglobals
  obtain ⟨w', hw, hs', hanswer⟩ :=
    (preserves hhost).answers u.task u.state w h.visits hs hfits a t ho
  rw [htask] at hfits
  change r.FitsAnswer w' u.task a at hanswer
  rw [htask] at hanswer
  obtain ⟨home, p, -, henv, -⟩ := hfits
  obtain ⟨c, hc, -, hdeclared⟩ := hanswer
  unfold Context.outcome at ho
  rw [htask] at ho
  have hnormal : a = .completion .normal := Context.run_declaration hx ho
  rw [hnormal] at hc
  cases hc
  refine hwithin i x ?_
  rw [← hs'.1]
  exact hdeclared rfl x i hx rfl (Nat.lt_of_lt_of_le (henv.head_lt rfl) hw.1.length_le)

/-- The access is bound to a local scope in which only a function has the name, and the run has not
executed the declaration of the function in this activation. -/
def AheadOfFunction (r : Course) (v : Visit) (env : Environment) (n : Node) (x : Name) : Prop :=
  ∃ d owner declaration i outer, r.ctx.table[n.key]? = some (.atDepth d) ∧
    env.drop d = i :: outer ∧ r.Opened outer i owner ∧ owner.OnlyFunction x declaration ∧
    ¬ v.state.store.binds i x ∧ ∀ u, r.Before u v → u.task ≠ .execute (i :: outer) declaration

/-- The access is bound to the globals, where the name was not before the run, and the run has not
executed a top-level declaration of it. -/
def AheadOfGlobal (r : Course) (v : Visit) (n : Node) (x : Name) : Prop :=
  r.ctx.table[n.key]? = some .global ∧ x ∈ Program.declared r.program ∧
    r.start.store.holder? x r.ctx.globals = none ∧
    v.state.store.holder? x r.ctx.globals = none ∧ ∀ declaration ∈ r.program,
      declaration.declared? = some x → ∀ u, r.Before u v →
        u.task ≠ .execute r.ctx.globals declaration

section

variable {k : Nat} {known : List Name} {w : World} {v : Visit} {env : Environment} {p : Place}
  {e : Expr Node} {n : Node} {x : Name}

/-- An access to a local scope misses only functions of the scope that are declared later. -/
theorem FitsEnv.aheadOfFunction (hscoped : Program.Scoped r.program)
    (hclean : (resolve known true r.program).diagnostics = []) (hhost : r.ctx.host.Faithful)
    (hglobals : ∀ i ∈ r.ctx.globals, i < r.start.store.frames.size)
    (hs : r.invariant.holds w v.state) (henv : r.FitsEnv w .program p env v)
    (hsite : ⟨.expr e, p⟩ ∈ r.sites .program) {d : Nat} (hdepth : Scope.depth? x p.scopes = some d)
    (htable : r.ctx.table[n.key]? = some (.atDepth d))
    (hmissing : v.state.store.holderAt? x env d = none) : r.AheadOfFunction v env n x := by
  obtain ⟨hactive, -, hbound⟩ := henv
  obtain ⟨s, hscope, hdefined⟩ := Scope.state?_of_depth? hdepth
  obtain ⟨o, names, ho, hnames, hlayer⟩ := (Site.layers hscoped hsite).get hscope
  obtain ⟨i, outer, hdrop, hopened⟩ := hactive.opened ho
  have hunbound : ¬ v.state.store.binds i x := by
    intro hi
    rw [Store.holderAt?, hdrop] at hmissing
    simp [hi] at hmissing
  have hfun : x ∈ o.functions := by
    refine (hlayer.ahead x hdefined).resolve_left fun hmem => hunbound ?_
    rw [← hs.1]
    exact hbound.get hnames hdrop hmem
  obtain ⟨declaration, honly⟩ := Site.onlyFunction hscoped hclean hsite ho hfun
  refine ⟨d, o, declaration, i, outer, htable, hdrop, hopened, honly, hunbound, ?_⟩
  intro u hbefore htask
  have hdeclared : declaration.declared? = some x := by
    cases declaration with
    | funDecl m y params body => exact honly.1
    | _ => cases honly.1
  exact hunbound (hbefore.binds hhost hglobals htask hdeclared)

/-- An access to the globals misses only what the program itself declares later. -/
theorem FitsEnv.aheadOfGlobal (hclean : (resolve known true r.program).diagnostics = [])
    (hhost : r.ctx.host.Faithful)
    (hglobals : ∀ i ∈ r.ctx.globals, i < r.start.store.frames.size) (hframe : r.ctx.globals ≠ [])
    (hknown : ∀ y ∈ known, (r.start.store.holder? y r.ctx.globals).isSome)
    (hw : r.firstWorld ≤ w) (hs : r.invariant.holds w v.state)
    (hsite : ⟨.expr e, p⟩ ∈ r.sites .program) (hx : (Code.expr e).access? = some (n, x))
    (hdepth : Scope.depth? x p.scopes = none) (htable : r.ctx.table[n.key]? = some .global)
    (hmissing : v.state.store.holder? x r.ctx.globals = none) : r.AheadOfGlobal v n x := by
  have hfirst : r.start.store.holder? x r.ctx.globals = none := by
    by_contra hne
    obtain ⟨i, hi, hbinds⟩ := Store.holder?_isSome.mp (Option.isSome_iff_ne_none.mpr hne)
    have hlater : v.state.store.binds i x := hs.1 ▸ hw.2 i x hbinds
    have hfound := Store.holder?_isSome.mpr ⟨i, hi, hlater⟩
    rw [hmissing] at hfound
    cases hfound
  have hdeclared : x ∈ Program.declared r.program := by
    refine (Site.mem_globals hclean hsite hx hdepth).resolve_left fun hmem => ?_
    have hfound := hknown x hmem
    rw [hfirst] at hfound
    cases hfound
  refine ⟨htable, hdeclared, hfirst, hmissing, fun declaration _ hname u hbefore htask => ?_⟩
  obtain ⟨i, outer, henv⟩ := List.exists_cons_of_ne_nil hframe
  rw [henv] at htask
  have hbinds := hbefore.binds hhost hglobals htask hname
  have hfound := Store.holder?_isSome.mpr ⟨i, henv ▸ List.mem_cons_self, hbinds⟩
  rw [hmissing] at hfound
  cases hfound

end

/-- When a program is run with the table of the resolver, the resolver has reported nothing and the
run calls no function from before, an access that finds no variable is one to a function or a global
that the run has not declared yet. A run that ends with an undefined variable ends at such an
access. -/
theorem undefined_only_ahead {k : Nat} {source : Text}
    (hparse : parseKeyed? k source = .ok r.program) {known : List Name}
    (hclean : (resolve known true r.program).diagnostics = [])
    (htable : r.ctx.table = (resolve known true r.program).table) (hhost : r.ctx.host.Faithful)
    (hglobals : ∀ i ∈ r.ctx.globals, i < r.start.store.frames.size) (hframe : r.ctx.globals ≠ [])
    (hknown : ∀ x ∈ known, (r.start.store.holder? x r.ctx.globals).isSome)
    (hmade : ∀ c, r.Called c → ¬ r.Guest c) :
    (∀ v env n x, r.Visits v → v.task.access? = some (env, n, x) →
      r.ctx.holder? env n x v.state.store = none →
        r.AheadOfFunction v env n x ∨ r.AheadOfGlobal v n x) ∧
    ∀ x l t, r.ctx.interpret r.work r.program r.start = .failed ⟨.undefinedVariable x, l⟩ t →
      ∃ v env n, r.Visits v ∧ v.task.access? = some (env, n, x) ∧ l = some n.location ∧
        (r.AheadOfFunction v env n x ∨ r.AheadOfGlobal v n x) := by
  have hscoped : Program.Scoped r.program := scoped_of_parseKeyed? hparse
  have hkeys : (Program.keys r.program).Nodup := nodup_keys_of_parseKeyed? hparse
  have hvisits (v : Visit) (env : Environment) (n : Node) (x : Name) (hv : r.Visits v)
      (haccess : v.task.access? = some (env, n, x))
      (hmissing : r.ctx.holder? env n x v.state.store = none) :
      r.AheadOfFunction v env n x ∨ r.AheadOfGlobal v n x := by
    obtain ⟨w, hw, hs, hfits⟩ := hv.fits hhost hglobals
    obtain ⟨e, hx, home, p, hsites, henv, -⟩ := hfits.access haccess
    have hsite : ⟨.expr e, p⟩ ∈ r.sites home := hsites List.mem_cons_self
    cases home with
    | guest c => exact absurd henv.1 (hmade c henv.2.1)
    | program =>
      have hentry : r.ctx.table[n.key]? = some (.ofDepth (Scope.depth? x p.scopes)) := by
        rw [htable]
        exact resolve_table hkeys hsite (Site.access?_eq_some.mpr ⟨hx, rfl⟩)
      rw [Context.holder?, hentry] at hmissing
      cases hdepth : Scope.depth? x p.scopes with
      | some d =>
        rw [hdepth] at hentry hmissing
        left
        exact henv.aheadOfFunction hscoped hclean hhost hglobals hs hsite hdepth hentry hmissing
      | none =>
        rw [hdepth] at hentry hmissing
        right
        exact FitsEnv.aheadOfGlobal hclean hhost hglobals hframe hknown hw hs hsite hx hdepth
          hentry hmissing
  refine ⟨hvisits, fun x l t hrun => ?_⟩
  rw [Context.interpret_eq_run] at hrun
  obtain ⟨v, env, n, hv, haccess, hmissing, hl, -⟩ :=
    Context.exists_access_of_failed (Outcome.map_eq_failed.mp hrun)
  exact ⟨v, env, n, hv, haccess, hl, hvisits v env n x hv haccess hmissing⟩

theorem undefined_only_ahead_block : ∃ p, parseKeyed? firstKey "{ f(); fun f() {} }" = .ok p ∧
    let r : Course :=
      ⟨⟨Command.start.1, (resolve ["clock"] true p).table, .standard (.stopped Number.zero)⟩,
        p, 8, Command.start.2⟩
    ∃ v env n, r.Visits v ∧ v.task.access? = some (env, n, ("f" : Name)) ∧
      r.AheadOfFunction v env n "f" := by
  let resolution (p : Program Node) := resolve ["clock"] true p
  let resolved (p : Program Node) : Context :=
    ⟨Command.start.1, (resolution p).table, .standard (.stopped Number.zero)⟩
  obtain ⟨p, hparse, hclean, hfault, hglobal⟩ :
      ∃ p, parseKeyed? firstKey "{ f(); fun f() {} }" = .ok p ∧ (resolution p).diagnostics = [] ∧
        ((resolved p).interpret 8 p Command.start.2).fault? = some (.undefinedVariable "f") ∧
        Program.declared p = [] :=
    exists_parseKeyed?_of_any (by decide +kernel)
  refine ⟨p, hparse, ?_⟩
  intro r
  have hmade : ∀ c, r.Called c → ¬ r.Guest c := fun c _ => Course.not_guest rfl c
  have hknown : ∀ x ∈ [("clock" : Name)], (r.start.store.holder? x r.ctx.globals).isSome := by
    intro x hx
    rw [List.mem_singleton.mp hx]
    rfl
  obtain ⟨-, hfailed⟩ := undefined_only_ahead (r := r) hparse hclean rfl
    (Host.faithful_standard _) (fun i hi => Store.lt_size_of_mem_root hi) (List.cons_ne_nil _ _)
    hknown hmade
  obtain ⟨l, t, ht⟩ := Outcome.fault?_eq_some.mp hfault
  obtain ⟨v, env, n, hv, haccess, -, hahead⟩ := hfailed "f" l t ht
  refine ⟨v, env, n, hv, haccess, ?_⟩
  rcases hahead with hfunction | ⟨-, hdeclared, -⟩
  · exact hfunction
  · rw [hglobal] at hdeclared
    cases hdeclared

/-- A function from an earlier program brings its own accesses into the run. Of this program the
resolver reports nothing, and every known global is there, but the run ends with a variable that no
declaration of the program could have made. -/
theorem undefined_in_earlier_function :
    let earlier : Text := "fun g() \x7b return zzz; \x7d"
    ∃ first p s l t, parseKeyed? firstKey earlier = .ok first ∧
      parseKeyed? (parseKeyed firstKey earlier).2 "g();" = .ok p ∧
      let context (table : ResolutionTable) : Context :=
        ⟨Command.start.1, table, .standard (.stopped Number.zero)⟩
      (context (resolve ["clock"] false first).table).interpret 8 first Command.start.2 =
          .done () s ∧
        let r : Course := ⟨context (resolve ["clock", "g"] true p).table, p, 8, s⟩
        (resolve ["clock", "g"] true p).diagnostics = [] ∧
          (∀ x ∈ [("clock" : Name), "g"], (s.store.holder? x r.ctx.globals).isSome) ∧
          r.ctx.interpret r.work r.program r.start = .failed ⟨.undefinedVariable "zzz", l⟩ t ∧
          ∀ v env n, ¬ r.AheadOfFunction v env n "zzz" ∧ ¬ r.AheadOfGlobal v n "zzz" := by
  intro earlier
  let resolved (known : List Name) (reports : Bool) (p : Program Node) : Context :=
    ⟨Command.start.1, (resolve known reports p).table, .standard (.stopped Number.zero)⟩
  let run (p : Program Node) := (resolved ["clock"] false p).interpret 8 p Command.start.2
  let known : List Name := ["clock", "g"]
  let Fails (p : Program Node) (s : State) : Prop :=
    (resolve known true p).diagnostics = [] ∧
      (∀ x ∈ known, (s.store.holder? x Command.start.1).isSome) ∧
      ((resolved known true p).interpret 8 p s).fault? = some (.undefinedVariable "zzz") ∧
      (∀ entry ∈ (resolve known true p).table.toList, entry.2 = .global) ∧ p.declared = []
  let k := (parseKeyed firstKey earlier).2
  obtain ⟨first, hfirst, s, hs, p, hp, hclean, hknown, hfault, htable, hdeclared⟩ :
      ∃ first, parseKeyed? firstKey earlier = .ok first ∧
        ∃ s, run first = .done () s ∧ ∃ p, parseKeyed? k "g();" = .ok p ∧ Fails p s := by
    obtain ⟨first, hfirst, hdone, hends, hfails⟩ :
        ∃ first, parseKeyed? firstKey earlier = .ok first ∧ (run first).fault? = none ∧
          (run first).state?.isSome ∧ ∀ s ∈ (run first).state?,
            (parseKeyed? k "g();").toOption.any fun p => Fails p s :=
      exists_parseKeyed?_of_any (by decide +kernel)
    cases hrun : run first with
    | done result s =>
      rw [hrun] at hfails
      exact ⟨first, hfirst, s, hrun, exists_parseKeyed?_of_any (hfails s rfl)⟩
    | failed e s => rw [hrun] at hdone; cases hdone
    | exhausted => rw [hrun] at hends; cases hends
  obtain ⟨l, t, ht⟩ := Outcome.fault?_eq_some.mp hfault
  refine ⟨first, p, s, l, t, hfirst, hp, hs, hclean, hknown, ht, fun v env n => ⟨?_, ?_⟩⟩
  · rintro ⟨d, -, -, -, -, hentry, -⟩
    cases htable _ (Std.TreeMap.mem_toList_iff_getElem?_eq_some.mpr hentry)
  · rintro ⟨-, hmem, -⟩
    have hmem : ("zzz" : Name) ∈ Program.declared p := hmem
    rw [hdeclared] at hmem
    cases hmem

end Course

end Lox
