import Lox.Command.Basic
import Lox.Proofs.Resolution.Parsed
import Lox.Proofs.Resolution.Table
import Lox.Proofs.Run.Contract
import Lox.Proofs.Run.Origin
import Lox.Proofs.Run.World

/-! A block that reads and assigns only variables of scopes that are opened inside it leaves no
trace: whichever way it ends, all frames from before have the same variables with the same values.
The first frames of every environment in it have been opened since, no access goes further out than
these, and functions that are made in it take such an environment along. -/

namespace Lox

/-- A variable that is accessed here is one of the scopes within the outer ones. -/
def Site.Inward (outer : Nat) (site : Site) : Prop :=
  ∀ a ∈ site.code.access?, ∃ d ∈ Scope.depth? a.2 site.place.scopes,
    d + outer < site.place.scopes.length

instance (outer : Nat) (site : Site) : Decidable (site.Inward outer) :=
  inferInstanceAs (Decidable (∀ a ∈ site.code.access?, ∃ d ∈ Scope.depth? a.2 site.place.scopes, _))

/-- Every variable that a statement reads or assigns is one of a scope that is opened inside it. -/
def Stmt.SelfContained (p : Place) (s : Stmt Node) : Prop :=
  ∀ site ∈ s.sites p, site.Inward p.scopes.length

instance (p : Place) (s : Stmt Node) : Decidable (s.SelfContained p) :=
  inferInstanceAs (Decidable (∀ site ∈ s.sites p, site.Inward p.scopes.length))

/-- What stands at a place of a program is part of it. -/
theorem Stands.sites_subset {q stmts : Program Node} {p : Place} (h : Stands q p stmts) :
    Program.sites p stmts ⊆ Program.sites .top q := by
  induction h with
  | top => exact List.Subset.refl _
  | next _ ih => exact List.Subset.trans (List.subset_append_right _ _) ih
  | block _ ih | function _ ih =>
    exact fun site hsite => ih (List.mem_append_left _ (List.mem_cons_of_mem _ hsite))
  | @thenBranch _ _ _ _ e _ _ ih =>
    intro site hsite
    refine ih (List.mem_append_left _ ?_)
    rw [Program.sites, Program.sites, List.append_nil] at hsite
    cases e with
    | none => exact List.mem_cons_of_mem _ (List.mem_append_right _ hsite)
    | some e =>
      exact List.mem_cons_of_mem _ (List.mem_append_left _ (List.mem_append_right _ hsite))
  | elseBranch _ ih | loop _ ih =>
    intro site hsite
    rw [Program.sites, Program.sites, List.append_nil] at hsite
    exact ih (List.mem_append_left _ (List.mem_cons_of_mem _ (List.mem_append_right _ hsite)))

/-- A store from before a block runs, with the table and the number of scopes around the block. -/
structure Enclosure where
  table : ResolutionTable
  outer : Nat
  before : Store

namespace Enclosure

variable (E : Enclosure)

/-- The table binds an access at the site within the outer scopes. -/
def Bound (site : Site) : Prop :=
  ∀ a ∈ site.code.access?, ∃ d, E.table[a.1.key]? = some (.atDepth d) ∧
    d + E.outer < site.place.scopes.length

/-- The environment is one for so many scopes; the inner ones have frames of their own. -/
def FitsEnv (scopes : Nat) (env : Environment) : Prop :=
  E.outer < scopes ∧ ∀ i ∈ env.take (scopes - E.outer), E.before.frames.size ≤ i

/-- The code stands at a place of the environment, and its accesses go to frames opened since. -/
def FitsCode (env : Environment) (code : Place → List Site) : Prop :=
  ∃ p, E.FitsEnv p.scopes.length env ∧ ∀ site ∈ code p, E.Bound site

/-- Functions run inside as well; what a native one does is not known. -/
def FitsValue : Value → Prop
  | .native _ => False
  | .function f => ∀ i, E.before.frames.size ≤ i → E.FitsCode (i :: f.env) (Program.sites · f.body)
  | _ => True

def FitsTask : Task → Prop
  | .evaluate env e => E.FitsCode env (e.sites ·)
  | .evaluateAll env es => E.FitsCode env (Expr.sitesAll · es)
  | .call f args _ => E.FitsValue f ∧ ∀ a ∈ args, E.FitsValue a
  | .execute env s => E.FitsCode env (s.sites ·)
  | .executeAll env stmts => E.FitsCode env (Program.sites · stmts)
  | .executeLoop env c body => E.FitsCode env fun p => c.sites p ++ body.sites p
  | .read env n x => E.FitsCode env fun p => [⟨.expr (.reference n x), p⟩]
  | .write env n x v => E.FitsValue v ∧ ∃ e, E.FitsCode env fun p => [⟨.expr (.assign n x e), p⟩]

/-- The frames from before are as they were, and those opened since hold only values from inside. -/
structure Keeps (s : Store) : Prop where
  size : E.before.frames.size ≤ s.frames.size
  same : ∀ i, i < E.before.frames.size → s.frame i = E.before.frame i
  values : ∀ i x v, E.before.frames.size ≤ i → (s.frame i).lookup x = some v → E.FitsValue v

def contract : Contract where
  holds s := E.Keeps s.store
  fits := E.FitsTask
  value := E.FitsValue

section

variable {E} {s : Store} {env : Environment} {i : Nat} {x : Name} {v : Value}
  {code code' : Place → List Site} {scopes : Nat}

theorem fitsValue_of_callable (h : v.callable = false) : E.FitsValue v := by
  cases v with
  | native f | function f => cases h
  | _ => exact trivial

theorem FitsCode.part (h : E.FitsCode env code) (hcode : ∀ p, code' p ⊆ code p) :
    E.FitsCode env code' := by
  obtain ⟨p, henv, hbound⟩ := h
  exact ⟨p, henv, fun site hsite => hbound site (hcode p hsite)⟩

private theorem FitsEnv.head (h : E.FitsEnv scopes env) (hi : env.head? = some i) :
    E.before.frames.size ≤ i := by
  obtain ⟨hscopes, hframes⟩ := h
  obtain ⟨rest, rfl⟩ := List.head?_eq_some_iff.mp hi
  obtain ⟨n, hn⟩ : ∃ n, scopes - E.outer = n + 1 := ⟨scopes - E.outer - 1, by omega⟩
  refine hframes i ?_
  rw [hn, List.take_succ_cons]
  exact List.mem_cons_self

private theorem FitsEnv.inner (h : E.FitsEnv scopes env) (hi : E.before.frames.size ≤ i) :
    E.FitsEnv (scopes + 1) (i :: env) := by
  obtain ⟨hscopes, hframes⟩ := h
  refine ⟨by omega, ?_⟩
  rw [Nat.succ_sub (Nat.le_of_lt hscopes), List.take_succ_cons]
  exact List.forall_mem_cons.mpr ⟨hi, hframes⟩

/-- An access inside goes to a frame that has been opened since. -/
theorem FitsCode.holder {ctx : Context} (htable : ctx.table = E.table) {n : Node} {e : Expr Node}
    (h : E.FitsCode env fun p => [⟨.expr e, p⟩]) (he : (Code.expr e).access? = some (n, x))
    (hi : ctx.holder? env n x s = some i) : E.before.frames.size ≤ i := by
  obtain ⟨p, henv, hbound⟩ := h
  obtain ⟨d, hd, hlt⟩ := hbound _ (List.mem_singleton_self _) _ he
  dsimp only at hd hlt
  rw [Context.holder?, htable, hd] at hi
  dsimp only at hi
  have hmem : env[d]? = some i := by
    unfold Store.holderAt? at hi
    rw [← List.head?_drop]
    split at hi
    · cases hi
    · split at hi
      · cases hi
        simp [*]
      · cases hi
  refine henv.2 i (List.mem_of_getElem? (i := d) ?_)
  rw [List.getElem?_take, if_pos (by omega), hmem]

namespace Keeps

theorem refl (hE : E.before = s) : E.Keeps s := by
  subst hE
  refine ⟨Nat.le_refl _, fun _ _ => rfl, fun i x v hi hv => ?_⟩
  have hbinds : E.before.binds i x := Option.isSome_iff_exists.mpr ⟨v, hv⟩
  exact absurd hbinds (World.not_binds_of_size_le _ hi)

theorem setIn (h : E.Keeps s) (hi : E.before.frames.size ≤ i) (hv : E.FitsValue v) :
    E.Keeps (s.setIn i x v) := by
  by_cases hsize : i < s.frames.size
  · refine ⟨by simpa using h.size, fun j hj => ?_, fun j y w hj hw => ?_⟩
    · rw [s.frame_setIn i j x v hsize, if_neg (by omega)]
      exact h.same j hj
    · rw [s.frame_setIn i j x v hsize] at hw
      split at hw
      · rw [Frame.lookup_set] at hw
        split at hw
        · cases hw
          exact hv
        · exact h.values i y w hi hw
      · exact h.values j y w hj hw
  · rw [World.setIn_of_size_le s (Nat.le_of_not_lt hsize)]
    exact h

theorem child (h : E.Keeps s) (env : Environment) : E.Keeps (s.child env).2 := by
  refine ⟨?_, fun i hi => ?_, fun i x v hi hv => ?_⟩
  · have := h.size
    simp
    omega
  · rw [Store.frame_child]
    exact h.same i hi
  · rw [Store.frame_child] at hv
    exact h.values i x v hi hv

theorem define (h : E.Keeps s) (henv : ∀ i, env.head? = some i → E.before.frames.size ≤ i)
    (hv : E.FitsValue v) : E.Keeps (s.define env x v) := by
  cases env with
  | nil => exact h
  | cons i env => exact h.setIn (henv i rfl) hv

private theorem defineAll (h : E.Keeps s)
    (henv : ∀ i, env.head? = some i → E.before.frames.size ≤ i)
    {vs : List Value} (hvs : ∀ v ∈ vs, E.FitsValue v) (xs : List Name) :
    E.Keeps (s.defineAll env xs vs) := by
  induction xs generalizing s vs with
  | nil => exact h
  | cons x xs ih =>
    cases vs with
    | nil => exact h
    | cons v vs =>
      obtain ⟨hv, hvs⟩ := List.forall_mem_cons.mp hvs
      exact ih (h.define henv hv) hvs

end Keeps

/-- Code at another place with as many scopes. -/
theorem FitsCode.move (h : E.FitsCode env code) (place : Place → Place)
    (hlength : ∀ p, (place p).scopes.length = p.scopes.length)
    (hcode : ∀ p, code' (place p) ⊆ code p) : E.FitsCode env code' := by
  obtain ⟨p, henv, hbound⟩ := h
  refine ⟨place p, ?_, fun site hsite => hbound site (hcode p hsite)⟩
  rw [hlength]
  exact henv

/-- Code in one more scope, in a frame that has been opened since. -/
theorem FitsCode.inner (h : E.FitsCode env code) (place : Place → Place)
    (hlength : ∀ p, (place p).scopes.length = p.scopes.length + 1)
    (hcode : ∀ p, code' (place p) ⊆ code p) (hi : E.before.frames.size ≤ i) :
    E.FitsCode (i :: env) code' := by
  obtain ⟨p, henv, hbound⟩ := h
  refine ⟨place p, ?_, fun site hsite => hbound site (hcode p hsite)⟩
  rw [hlength]
  exact henv.inner hi

private theorem FitsCode.head (h : E.FitsCode env code) (hi : env.head? = some i) :
    E.before.frames.size ≤ i := by
  obtain ⟨p, henv, -⟩ := h
  exact henv.head hi

end

section

variable {E : Enclosure} {s : State} {env : Environment}

private theorem plan_operator {m : Eval Value} (hs : E.Keeps s.store)
    (hdone : ∀ v t, m s = .done v t → t = s ∧ v.callable = false)
    (hfailed : ∀ e t, m s = .failed e t → t = s) :
    E.contract.plan (.finish ((m s).map .value)) := by
  cases ho : m s with
  | done v t =>
    obtain ⟨rfl, hv⟩ := hdone v t ho
    exact ⟨hs, fitsValue_of_callable hv⟩
  | failed e t =>
    rw [hfailed e t ho]
    exact hs
  | exhausted => exact trivial

private theorem plan_planExpr {e : Expr Node} (hs : E.Keeps s.store)
    (h : E.FitsCode env (e.sites ·)) : E.contract.plan (Context.planExpr env s e) := by
  cases e with
  | literal n l =>
    refine ⟨hs, fitsValue_of_callable ?_⟩
    cases l <;> rfl
  | grouping n e => exact Contract.plan_last hs (h.part fun p => List.subset_cons_self _ _)
  | reference n x => exact Contract.plan_last hs (h.part fun p => List.Subset.refl _)
  | assign n x e =>
    refine Contract.plan_value hs (h.part fun p => List.subset_cons_self _ _) fun v t ht hv => ?_
    refine ⟨ht, ⟨hv, e, h.part fun p site hsite => ?_⟩, fun _ u hu _ => ⟨hu, hv⟩⟩
    rw [List.mem_singleton.mp hsite]
    exact List.mem_cons_self
  | logical n l op r =>
    refine Contract.plan_value hs (h.part fun p => ?_) fun v t ht hv => ?_
    · exact List.subset_cons_of_subset _ (List.subset_append_left _ _)
    · split
      · exact ⟨ht, hv⟩
      · refine Contract.plan_last ht (h.part fun p => ?_)
        exact List.subset_cons_of_subset _ (List.subset_append_right _ _)
  | unary n op e =>
    refine Contract.plan_value hs (h.part fun p => List.subset_cons_self _ _) fun v t ht _ => ?_
    exact plan_operator ht (fun _ _ => UnaryOp.apply_done) fun _ _ ho => (UnaryOp.apply_failed ho).1
  | binary n l op r =>
    refine Contract.plan_value hs (h.part fun p => ?_) fun v t ht _ => ?_
    · exact List.subset_cons_of_subset _ (List.subset_append_left _ _)
    · refine Contract.plan_value ht (h.part fun p => ?_) fun w u hu _ => ?_
      · exact List.subset_cons_of_subset _ (List.subset_append_right _ _)
      · exact plan_operator hu (fun _ _ => BinaryOp.apply_done)
          fun _ _ ho => (BinaryOp.apply_failed ho).1
  | call n c args =>
    refine Contract.plan_value hs (h.part fun p => ?_) fun f t ht hf => ?_
    · exact List.subset_cons_of_subset _ (List.subset_append_left _ _)
    · refine Contract.plan_values ht (h.part fun p => ?_) fun vs u hu hvs => ?_
      · exact List.subset_cons_of_subset _ (List.subset_append_right _ _)
      · exact Contract.plan_last hu ⟨hf, hvs⟩

private theorem plan_planAll {es : List (Expr Node)} (hs : E.Keeps s.store)
    (h : E.FitsCode env (Expr.sitesAll · es)) : E.contract.plan (Context.planAll env s es) := by
  cases es with
  | nil => exact ⟨hs, fun _ => nofun⟩
  | cons e rest =>
    refine Contract.plan_value hs (h.part fun p => List.subset_append_left _ _)
      fun v t ht hv => ?_
    refine Contract.plan_values ht (h.part fun p => List.subset_append_right _ _)
      fun vs u hu hvs => ?_
    exact ⟨hu, List.forall_mem_cons.mpr ⟨hv, hvs⟩⟩

/-- The body of a function runs in a frame of its own, with values from inside. -/
theorem plan_planCall (ctx : Context) {f : Value} {args : List Value} {location : Option Location}
    (hs : E.Keeps s.store) (hf : E.FitsValue f) (hargs : ∀ a ∈ args, E.FitsValue a) :
    E.contract.plan (ctx.planCall args location s f) := by
  cases f with
  | native f => exact hf.elim
  | function f =>
    rw [Context.planCall]
    split
    · have hhead (i : Nat) (hi : (s.inner f.env).head? = some i) : E.before.frames.size ≤ i := by
        cases hi
        exact hs.size
      have henter : E.Keeps (s.enter f args).store :=
        (hs.child f.env).defineAll hhead hargs f.params
      refine Contract.plan_completion henter (hf _ hs.size) fun c t ht hc => ?_
      cases c with
      | normal => exact ⟨ht, trivial⟩
      | returned v => exact ⟨ht, hc⟩
    · exact hs
  | _ => exact hs

private theorem plan_planStmt {stmt : Stmt Node} (hs : E.Keeps s.store)
    (h : E.FitsCode env (stmt.sites ·)) : E.contract.plan (Context.planStmt env s stmt) := by
  have hdefine {t : State} {x : Name} {v : Value} (ht : E.Keeps t.store) (hv : E.FitsValue v) :
      E.Keeps (t.define env x v).store := ht.define (fun i hi => h.head hi) hv
  cases stmt with
  | expression n e | print n e =>
    exact Contract.plan_value hs (h.part fun p => List.subset_cons_self _ _)
      fun v t ht _ => ⟨ht, trivial⟩
  | varDecl n x e =>
    cases e with
    | none => exact ⟨hdefine hs trivial, trivial⟩
    | some e =>
      refine Contract.plan_value hs ?_ fun v t ht hv => ⟨hdefine ht hv, trivial⟩
      exact h.move (·.initializer n x) (fun p => Scope.length_declareInner _ _ _)
        fun p => List.subset_cons_self _ _
  | block n body =>
    refine Contract.plan_last (hs.child env) ?_
    exact h.inner (·.block n body) (fun p => rfl) (fun p => List.subset_cons_self _ _) hs.size
  | ifElse n c t e =>
    cases e with
    | none =>
      refine Contract.plan_value hs (h.part fun p => ?_) fun v u hu _ => ?_
      · exact List.subset_cons_of_subset _ (List.subset_append_left _ _)
      · split
        · refine Contract.plan_last hu (h.part fun p => ?_)
          exact List.subset_cons_of_subset _ (List.subset_append_right _ _)
        · exact ⟨hu, trivial⟩
    | some e =>
      refine Contract.plan_value hs (h.part fun p => ?_) fun v u hu _ => ?_
      · rw [Stmt.sites, List.append_assoc]
        exact List.subset_cons_of_subset _ (List.subset_append_left _ _)
      · split
        · refine Contract.plan_last hu (h.part fun p => ?_)
          refine List.subset_cons_of_subset _ (List.subset_append_of_subset_left _ ?_)
          exact List.subset_append_right _ _
        · refine Contract.plan_last hu (h.move (·.besides t) (fun p => ?_) fun p => ?_)
          · exact Stmt.length_findings _ _ _
          · exact List.subset_cons_of_subset _ (List.subset_append_right _ _)
  | whileLoop n c body =>
    exact Contract.plan_last hs (h.part fun p => List.subset_cons_self _ _)
  | funDecl n x params body =>
    refine ⟨hdefine hs fun i hi => ?_, trivial⟩
    refine h.inner (·.function n x params body) (fun p => ?_)
      (fun p => List.subset_cons_self _ _) hi
    exact congrArg Nat.succ (Stmt.length_findings _ _ _)
  | returnStmt n e =>
    cases e with
    | none => exact ⟨hs, trivial⟩
    | some e =>
      exact Contract.plan_value hs (h.part fun p => List.subset_cons_self _ _)
        fun v t ht hv => ⟨ht, hv⟩

private theorem plan_planStmts {stmts : Program Node} (hs : E.Keeps s.store)
    (h : E.FitsCode env (Program.sites · stmts)) :
    E.contract.plan (Context.planStmts env s stmts) := by
  cases stmts with
  | nil => exact ⟨hs, trivial⟩
  | cons stmt rest =>
    refine Contract.plan_completion hs (h.part fun p => List.subset_append_left _ _)
      fun c t ht hc => ?_
    cases c with
    | normal =>
      exact Contract.plan_last ht (h.move (·.after stmt) (fun p => Stmt.length_findings _ _ _)
        fun p => List.subset_append_right _ _)
    | returned v => exact ⟨ht, hc⟩

private theorem plan_planLoop {c : Expr Node} {body : Stmt Node} (hs : E.Keeps s.store)
    (h : E.FitsCode env fun p => c.sites p ++ body.sites p) :
    E.contract.plan (Context.planLoop env c body s) := by
  refine Contract.plan_value hs (h.part fun p => List.subset_append_left _ _) fun v t ht _ => ?_
  split
  · refine Contract.plan_completion ht (h.part fun p => List.subset_append_right _ _)
      fun r u hu hr => ?_
    cases r with
    | normal => exact Contract.plan_last hu h
    | returned v => exact ⟨hu, hr⟩
  · exact ⟨ht, trivial⟩

/-- What runs inside keeps the frames from before, and passes on only values from inside. -/
theorem contract_kept {ctx : Context} (htable : ctx.table = E.table) : E.contract.Kept ctx := by
  intro task s hs hfits
  cases task with
  | evaluate env e => exact plan_planExpr hs hfits
  | evaluateAll env es => exact plan_planAll hs hfits
  | call f args location => exact plan_planCall ctx hs hfits.1 hfits.2
  | execute env stmt => exact plan_planStmt hs hfits
  | executeAll env stmts => exact plan_planStmts hs hfits
  | executeLoop env c body => exact plan_planLoop hs hfits
  | read env n x =>
    rw [Context.plan]
    cases hi : ctx.holder? env n x s.store with
    | none =>
      rw [Context.read_of_no_holder hi]
      exact hs
    | some i =>
      obtain ⟨v, hv, ho⟩ := Context.read_of_holder? hi
      rw [ho]
      exact ⟨hs, hs.values i x v (FitsCode.holder htable hfits rfl hi) hv⟩
  | write env n x v =>
    obtain ⟨hv, e, hcode⟩ := hfits
    rw [Context.plan]
    cases hi : ctx.holder? env n x s.store with
    | none =>
      rw [Context.write_of_no_holder hi]
      exact hs
    | some i =>
      rw [Context.write_of_holder? hi]
      exact ⟨hs.setIn (hcode.holder htable rfl hi) hv, trivial⟩

end

end Enclosure

section

variable {ctx : Context} {q : Program Node} {known : List Name} {reportUndefined : Bool}
  {p : Place} {n : Node} {body : Program Node}

def Code.block? : Code → Option (Node × Program Node)
  | stmt (.block n body) => some (n, body)
  | _ => none

theorem Code.eq_of_block? {code : Code} (h : code.block? = some (n, body)) :
    code = .stmt (.block n body) := by
  unfold block? at h
  split at h
  · cases h
    rfl
  · cases h

private theorem Program.sites_block {q : Program Node}
    (hblock : ⟨.stmt (.block n body), p⟩ ∈ Program.sites .top q) :
    (Stmt.block n body).sites p ⊆ Program.sites .top q := by
  obtain ⟨p', stmt, rest, hstands, hown⟩ := Program.exists_stands .top hblock
  rcases stmt.eq_of_mem_ownSites hown with heq | ⟨e, heq⟩ | ⟨m, x, e, e', -, heq⟩
  · cases heq
    exact List.Subset.trans (List.subset_append_left _ _) hstands.sites_subset
  · cases heq
  · cases heq

/-- A table with the resolutions of the program binds the accesses inside a block inwards. -/
theorem bound_of_selfContained (hkeys : (Program.keys q).Nodup)
    (htable : ∀ (key : Nat) (r : Resolution),
      (resolve known reportUndefined q).table[key]? = some r →
        ctx.table[key]? = some r)
    (hblock : ⟨.stmt (.block n body), p⟩ ∈ Program.sites .top q)
    (hinside : (Stmt.block n body).SelfContained p) (before : Store) {site : Site}
    (hsite : site ∈ (Stmt.block n body).sites p) :
    Enclosure.Bound ⟨ctx.table, p.scopes.length, before⟩ site := by
  rintro ⟨m, x⟩ haccess
  obtain ⟨d, hd, hlt⟩ := hinside site hsite _ haccess
  have hfound : site.access? = some (.access m x (some d)) :=
    Site.access?_eq_some.mpr ⟨haccess, hd.symm⟩
  exact ⟨d, htable _ _ (resolve_table hkeys (Program.sites_block hblock hsite) hfound), hlt⟩

/-- A block of a program that reads and assigns only variables of scopes that are opened inside it
has no effect on the outside: wherever it is executed, and whether it ends normally, with a return
or with an error, every frame from before has the same variables with the same values. -/
theorem Context.execute_selfContained (hkeys : (Program.keys q).Nodup)
    (htable : ∀ (key : Nat) (r : Resolution),
      (resolve known reportUndefined q).table[key]? = some r →
        ctx.table[key]? = some r)
    (hblock : ⟨.stmt (.block n body), p⟩ ∈ Program.sites .top q)
    (hinside : (Stmt.block n body).SelfContained p)
    {work : Nat} {env : Environment} {s t : State}
    (ho : (ctx.execute work env (.block n body) s).state? = some t) :
    s.store.frames.size ≤ t.store.frames.size ∧
      ∀ i, i < s.store.frames.size → t.store.frame i = s.store.frame i := by
  let E : Enclosure := ⟨ctx.table, p.scopes.length, s.store⟩
  have hbound : ∀ site ∈ Program.sites (p.block n body) body, E.Bound site := fun site hsite =>
    bound_of_selfContained hkeys htable hblock hinside s.store (List.mem_cons_of_mem _ hsite)
  have hfits : E.FitsTask (.executeAll (s.inner env) body) := by
    refine ⟨p.block n body, ⟨Nat.lt_succ_self _, fun i hi => ?_⟩, hbound⟩
    have hone : (p.block n body).scopes.length - E.outer = 1 := Nat.add_sub_cancel_left _ 1
    rw [hone, State.inner, List.take_succ_cons, List.take_zero, List.mem_singleton] at hi
    exact Nat.le_of_eq hi.symm
  have hrun : ctx.run work (.execute env (.block n body)) s =
      (ctx.execute work env (.block n body) s).map .completion := rfl
  have houtcome : E.contract.outcome (ctx.run work (.execute env (.block n body)) s) := by
    cases work with
    | zero => exact trivial
    | succ work =>
      rw [Context.run_succ, Context.plan, Context.planStmt, Plan.run_last]
      exact (Enclosure.contract_kept rfl).run ((Enclosure.Keeps.refl rfl).child env) hfits
  have hkeeps : E.Keeps t.store := by
    refine Contract.holds_of_outcome houtcome ?_
    rw [hrun, Outcome.state?_map, ho]
  exact ⟨hkeeps.size, hkeeps.same⟩

/-- The inner `a` is changed by a function that was declared beside it, and the block fails. -/
theorem Context.execute_selfContained_failing :
    let source : Text := "var a; \x7b var a = nil; fun f(n) \x7b a = n; return f; \x7d -f(a); \x7d"
    ∃ p, parseKeyed? firstKey source = .ok p ∧
      let ctx : Context :=
        ⟨Command.start.1, (resolve [] true p).table, .standard (.stopped Number.zero)⟩
      ∃ block place e t, ⟨.stmt block, place⟩ ∈ Program.sites .top p ∧
        ctx.execute 20 ctx.globals block Command.start.2 = .failed e t ∧
        ∀ i, i < Command.start.2.store.frames.size →
          t.store.frame i = Command.start.2.store.frame i := by
  intro source
  let ctx (p : Program Node) : Context :=
    ⟨Command.start.1, (resolve [] true p).table, .standard (.stopped Number.zero)⟩
  obtain ⟨p, hparse, ⟨code, place⟩, hsite, ⟨n, body⟩, hblock, hinside, hfault⟩ :
      ∃ p, parseKeyed? firstKey source = .ok p ∧
        ∃ site ∈ Program.sites .top p, ∃ b ∈ site.code.block?,
          (Stmt.block b.1 b.2).SelfContained site.place ∧
            ((ctx p).execute 20 (ctx p).globals (.block b.1 b.2) Command.start.2).fault? =
              some (.unsupportedOperator "-Function") :=
    exists_parseKeyed?_of_any (by decide +kernel)
  cases Code.eq_of_block? hblock
  obtain ⟨l, t, ht⟩ := Outcome.fault?_eq_some.mp hfault
  have htable : ∀ (key : Nat) (r : Resolution),
      (resolve [] true p).table[key]? = some r → (ctx p).table[key]? = some r := fun _ _ => id
  have hframes := execute_selfContained (nodup_keys_of_parseKeyed? hparse) htable hsite hinside
    (congrArg Outcome.state? ht)
  exact ⟨p, hparse, _, place, _, t, hsite, ht, hframes.2⟩

end

end Lox
