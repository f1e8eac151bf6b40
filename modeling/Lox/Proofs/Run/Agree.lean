import Lox.Proofs.Resolution.Clean
import Lox.Proofs.Resolution.Parsed
import Lox.Proofs.Run.Layers

/-! With the table of the resolver and without one, a program runs in the same way if no local name
is used before it is declared. -/

namespace Lox

/-- Searching the environment of a place from the inside out finds a name in the frame that the
scopes of the resolver tell, if every frame that can have the name has it. -/
theorem Layers.holder?_eq {r : Course} {w : World} (hsound : r.Sound w) {owners : List (Stmt Node)}
    {scopes : List Scope} {settled : List (List Name)} (hlayers : Layers owners scopes settled)
    {env : Environment} (hlabels : Labelled w.owners owners env)
    (hbound : Bound w.store settled env) {x : Name}
    (hx : ∀ (d : Nat) o names, owners[d]? = some o → settled[d]? = some names → x ∈ o.scopeNames →
      x ∈ names ∨ x ∉ o.functions ∧ ∀ i, env[d]? = some i → ¬ w.store.binds i x) :
    w.store.holder? x env = match Scope.depth? x scopes with
      | none => w.store.holder? x (env.drop owners.length)
      | some d => w.store.holderAt? x env d := by
  induction hlayers generalizing env with
  | nil => rfl
  | @cons o s names owners scopes settled hlayer _ ih =>
    cases env with
    | nil => exact hlabels.elim
    | cons i env =>
      obtain ⟨hlabel, hlabels⟩ := hlabels
      obtain ⟨hnames, hbound⟩ := hbound
      have hown := hx 0 o names rfl rfl
      by_cases hdefined : s.state? x = some .defined
      · have hmem : x ∈ names := by
          rcases hlayer.ahead x hdefined with hmem | hfun
          · exact hmem
          · rcases hown (o.functions_subset_scopeNames hfun) with hmem | ⟨hnot, -⟩
            · exact hmem
            · exact absurd hfun hnot
        rw [Scope.depth?, if_pos hdefined, Store.holder?, if_pos (hnames x hmem)]
        simp [Store.holderAt?, hnames x hmem]
      · -- the frame does not have the name, and the search goes on outside
        have hnotMem : x ∉ names := fun hmem => hdefined (hlayer.defined x hmem)
        have hunbound : ¬ w.store.binds i x := by
          intro hi
          rcases hown (hsound.names i o hlabel x hi) with hmem | ⟨-, hnew⟩
          · exact hnotMem hmem
          · exact hnew i rfl hi
        have houter := ih hlabels hbound fun d => hx (d + 1)
        rw [Scope.depth?, if_neg hdefined, Store.holder?, if_neg hunbound, houter]
        cases Scope.depth? x scopes with
        | none => rfl
        | some d => rfl

namespace Course

variable {r : Course}

private theorem not_mem_functions {q : Program Node} {known : List Name} {reportUndefined : Bool}
    (hscoped : Program.Scoped q) (hclean : (resolve known reportUndefined q).diagnostics = [])
    {site : Site} (hsite : site ∈ Program.sites .top q) {d : Nat} {o : Stmt Node}
    (ho : site.place.owners[d]? = some o) {s : Stmt Node} (hs : s ∈ o.inside) {x : Name}
    (hx : s.declared? = some x) (hvar : s.declaredFunction? = none) : x ∉ o.functions := by
  intro hfun
  obtain ⟨declaration, hdeclaration, -, hunique, -⟩ :=
    Site.onlyFunction hscoped hclean hsite ho hfun
  rw [← hunique s hs hx, hvar] at hdeclaration
  cases hdeclaration

/-- An access finds the same frame with the table of the resolver and without a table. -/
theorem FitsCode.holder?_eq (hkeys : (Program.keys r.program).Nodup) {known : List Name}
    {reportUndefined : Bool}
    (htable : r.ctx.table = (resolve known reportUndefined r.program).table)
    (hclean : (resolve known reportUndefined r.program).diagnostics = [])
    (hscoped : Program.Scoped r.program)
    (hfollow : ∀ body ∈ Program.bodies r.program, Program.UsesFollow body)
    (hguests : ∀ c, ¬ r.Guest c) {w : World} {v : Visit} (hs : r.invariant.holds w v.state)
    {env : Environment} {e : Expr Node} {n : Node} {x : Name}
    (hx : (Code.expr e).access? = some (n, x))
    (h : r.FitsCode w env v fun p => [⟨.expr e, p⟩]) :
    r.ctx.holder? env n x v.state.store = v.state.store.holder? x env := by
  obtain ⟨home, p, hsites, henv, hexact⟩ := h
  cases home with
  | guest c => exact absurd henv.1 (hguests c)
  | program =>
    obtain ⟨hactive, hlabels, hbound⟩ := henv
    have hsite : ⟨.expr e, p⟩ ∈ Program.sites .top r.program := hsites List.mem_cons_self
    have hsettled (d : Nat) (o : Stmt Node) (names : List Name) (ho : p.owners[d]? = some o)
        (hnames : p.settled[d]? = some names) (hown : x ∈ o.scopeNames) :
        x ∈ names ∨ x ∉ o.functions ∧ ∀ i, env[d]? = some i → ¬ w.store.binds i x := by
      by_cases hmem : x ∈ names
      · exact .inl hmem
      · obtain ⟨rfl, s, hinside, hdeclared, hvar⟩ :=
          (Site.mem_settled hscoped hfollow hsite hx ho hnames hown).resolve_left hmem
        refine .inr ⟨not_mem_functions hscoped hclean hsite ho hinside hdeclared hvar, ?_⟩
        -- the variable is not defined before its initializer has been evaluated
        obtain ⟨outer, houter⟩ : ∃ outer, p.settled = names :: outer := by
          cases hp : p.settled with
          | nil => rw [hp] at hnames; cases hnames
          | cons names' outer => rw [hp] at hnames; cases hnames; exact ⟨outer, rfl⟩
        intro i hi hbinds
        rw [← List.head?_eq_getElem?] at hi
        exact hmem (hexact rfl hscoped names outer houter i x hi hbinds)
    have hsearch := (Site.layers hscoped hsite).holder?_eq hs.2 hlabels hbound hsettled
    have hentry : (resolve known reportUndefined r.program).table[n.key]? =
        some (.ofDepth (Scope.depth? x p.scopes)) :=
      resolve_table hkeys hsite (Site.access?_eq_some.mpr ⟨hx, rfl⟩)
    rw [hs.1, hactive.drop] at hsearch
    rw [hsearch, Context.holder?, htable, hentry]
    dsimp only
    cases Scope.depth? x p.scopes with
    | none => rfl
    | some d => rfl

end Course

theorem Context.plan_congr {ctx ctx' : Context} (hhost : ctx.host = ctx'.host) {task : Task}
    {s : State} (h : ∀ env n x, task.access? = some (env, n, x) →
      ctx.holder? env n x s.store = ctx'.holder? env n x s.store) :
    ctx.plan task s = ctx'.plan task s := by
  cases task with
  | call f args location =>
    cases f with
    | native f => rw [plan, plan, planCall, planCall, hhost]
    | _ => rfl
  | read env n x =>
    have hfound := h env n x rfl
    simp only [plan, read, Eval.ask, bind, Eval.bind, hfound]
  | write env n x a =>
    have hfound := h env n x rfl
    simp only [plan, write, Eval.ask, bind, Eval.bind, hfound]
  | _ => rfl

/-- A program of which the resolver reports nothing, and in which no name is used inside a block or
function body before its declaration there, runs in the same way with the table of the resolver and
without any table. -/
theorem interpret_resolved {k : Nat} {source : Text} {program : Program Node}
    (hparse : parseKeyed? k source = .ok program) {known : List Name} {reportUndefined : Bool}
    (hclean : (resolve known reportUndefined program).diagnostics = [])
    (hfollow : ∀ body ∈ Program.bodies program, Program.UsesFollow body)
    {host : Host} (hhost : host.Faithful) (natives : List Native) (work : Nat) :
    let resolved : Context :=
      ⟨(Store.empty.root natives).1, (resolve known reportUndefined program).table, host⟩
    let start : State := ⟨(Store.empty.root natives).2, #[], 0, 0⟩
    resolved.interpret work program start =
      Context.interpret { resolved with table := ∅ } work program start := by
  intro resolved start
  let r : Course := ⟨resolved, program, work, start⟩
  have htable : r.ctx.table = (resolve known reportUndefined r.program).table := rfl
  have hscoped : Program.Scoped r.program := scoped_of_parseKeyed? hparse
  have hkeys : (Program.keys r.program).Nodup := nodup_keys_of_parseKeyed? hparse
  have hglobals : ∀ i ∈ r.ctx.globals, i < r.start.store.frames.size :=
    fun i hi => Store.lt_size_of_mem_root hi
  have hguests : ∀ c, ¬ r.Guest c := Course.not_guest rfl
  have hplan : ∀ v, r.ctx.Reaches r.root v → r.ctx.plan v.task v.state =
      Context.plan { resolved with table := ∅ } v.task v.state := by
    intro v hv
    obtain ⟨w, -, hs, hfits⟩ := Course.Visits.fits (r := r) hv hhost hglobals
    have hsame : r.ctx.host = ({ resolved with table := ∅ } : Context).host := rfl
    refine Context.plan_congr hsame fun env n x hx => ?_
    obtain ⟨e, he, hcode⟩ := hfits.access hx
    rw [hcode.holder?_eq hkeys htable hclean hscoped hfollow hguests hs he]
    simp [Context.holder?]
  have hrun := Context.run_congr hplan r.root.task r.root.state .refl
  rw [Context.interpret_eq_run, Context.interpret_eq_run]
  exact congrArg (Outcome.map fun _ => ()) hrun

theorem interpret_resolved_block :
    ∃ program, parseKeyed? firstKey "{ var a; { var a = a; print a; } }" = .ok program ∧
      program.length = 1 ∧ ∀ work,
        let resolved : Context :=
          ⟨Command.start.1, (resolve ["clock"] true program).table,
            .standard (.stopped Number.zero)⟩
        resolved.interpret work program Command.start.2 =
          Context.interpret { resolved with table := ∅ } work program Command.start.2 := by
  obtain ⟨program, hparse, hlength, hclean, hfollow⟩ :
      ∃ program, parseKeyed? firstKey "{ var a; { var a = a; print a; } }" = .ok program ∧
        program.length = 1 ∧ (resolve ["clock"] true program).diagnostics = [] ∧
        ∀ body ∈ Program.bodies program, Program.UsesFollow body :=
    exists_parseKeyed?_of_any (by decide +kernel)
  exact ⟨program, hparse, hlength, fun work => interpret_resolved hparse hclean hfollow
    (Host.faithful_standard _) Native.standard work⟩

end Lox
