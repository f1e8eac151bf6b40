import Lox.Proofs.Resolution.Parsed
import Lox.Proofs.Resolution.Table
import Lox.Proofs.Run.Undefined

/-! Accesses that the resolver reports as undefined. A run adds to the globals only what statements
at the top level declare, so such an access fails whenever the run comes to it, unless a branch or
a loop body declares the name: the resolver passes over declarations that stand there. -/

namespace Lox

/-- Among the given globals the resolver reports the access as one to an undefined variable. -/
def Program.Reports (q : Program Node) (known : List Name) (n : Node) (x : Name) : Prop :=
  ∃ d, .access n x d ∈ (Program.findings false [] q).1 ∧
    Finding.diagnostic? (known ++ Program.declared q) true (.access n x d) =
      some ⟨.undefined x, n.location⟩

/-- A reported access is bound to the globals, where its name is not known. -/
theorem Program.Reports.global {q : Program Node} {known : List Name} {n : Node} {x : Name}
    (h : q.Reports known n x) : .access n x none ∈ (Program.findings false [] q).1 ∧
      x ∉ known ∧ x ∉ Program.declared q := by
  obtain ⟨d, hfinding, hdiagnostic⟩ := h
  cases d with
  | some d => cases hdiagnostic
  | none =>
    refine ⟨hfinding, not_or.mp fun hmem => ?_⟩
    rw [← List.mem_append] at hmem
    rw [Finding.diagnostic?, if_neg (by simp [hmem])] at hdiagnostic
    cases hdiagnostic

/-- An access that finds no frame ends the run at its location. -/
theorem Context.outcome_of_no_holder {ctx : Context} {v : Visit} {env : Environment} {n : Node}
    {x : Name} (haccess : v.task.access? = some (env, n, x))
    (h : ctx.holder? env n x v.state.store = none) :
    ctx.outcome v = .failed ⟨.undefinedVariable x, some n.location⟩ v.state := by
  obtain ⟨work, task, s⟩ := v
  unfold outcome
  cases task with
  | read => cases haccess; rw [run, read_of_no_holder h]; rfl
  | write => cases haccess; rw [run, write_of_no_holder h]; rfl
  | _ => cases haccess

namespace Course

variable {r : Course}

/-- In the course of a run the globals have the names from before and those that statements at the
top level declare. -/
theorem Visits.global_mem {v : Visit} (hv : r.Visits v)
    (hglobals : ∀ i ∈ r.ctx.globals, i < r.start.store.frames.size) {x : Name}
    (hx : (v.state.store.holder? x r.ctx.globals).isSome) :
    (r.start.store.holder? x r.ctx.globals).isSome ∨ x ∈ Program.ownNames r.program := by
  obtain ⟨i, hi, hbinds⟩ := Store.holder?_isSome.mp hx
  obtain ⟨hgrows, -⟩ := Context.Reaches.grows hv
  rcases hgrows.only i x (hglobals i hi) hbinds with hold | hdeclared
  · exact .inl (Store.holder?_isSome.mpr ⟨i, hi, hold⟩)
  · exact .inr hdeclared.2

/-- When a program is run with the table of the resolver, an access that the resolver reports as one
to an undefined variable fails with that error whenever the run comes to it, whatever else has been
reported. The resolver must know the globals from before the run, and no branch or loop body at the
top level may declare the name. -/
theorem reported_access_fails (hkeys : (Program.keys r.program).Nodup) {known : List Name}
    (htable : r.ctx.table = (resolve known true r.program).table)
    (hglobals : ∀ i ∈ r.ctx.globals, i < r.start.store.frames.size)
    (hknown : ∀ x, (r.start.store.holder? x r.ctx.globals).isSome → x ∈ known) {n : Node} {x : Name}
    (hreports : r.program.Reports known n x)
    (hbranches : x ∈ Program.ownNames r.program → x ∈ Program.declared r.program) {v : Visit}
    (hv : r.Visits v) {env : Environment} (haccess : v.task.access? = some (env, n, x)) :
    r.ctx.outcome v = .failed ⟨.undefinedVariable x, some n.location⟩ v.state := by
  obtain ⟨hfinding, hunknown, hundeclared⟩ := hreports.global
  obtain ⟨site, hsite, hsiteAccess⟩ := (Program.access_mem_findings .top r.program).mp hfinding
  have hentry : r.ctx.table[n.key]? = some .global := by
    rw [htable]
    exact resolve_table hkeys hsite hsiteAccess
  have hunbound : v.state.store.holder? x r.ctx.globals = none := by
    by_contra hne
    rcases hv.global_mem hglobals (Option.isSome_iff_ne_none.mpr hne) with hold | hown
    · exact hunknown (hknown x hold)
    · exact hundeclared (hbranches hown)
  refine Context.outcome_of_no_holder haccess ?_
  rw [Context.holder?, hentry]
  exact hunbound

theorem reported_access_fails_behind_block :
    let use : Stmt Node := .print ⟨4, .unknown⟩ (.reference ⟨3, .unknown⟩ "x")
    let p : Program Node := [.block ⟨2, .unknown⟩ [.varDecl ⟨1, .unknown⟩ "x" none], use]
    let ctx : Context :=
      ⟨Command.start.1, (resolve ["clock"] true p).table, .standard (.stopped Number.zero)⟩
    let r : Course := ⟨ctx, p, 6, Command.start.2⟩
    (resolve ["clock"] true p).diagnostics = [⟨.undefined "x", .unknown⟩] ∧
    ∃ v env, r.Visits v ∧ v.task.access? = some (env, ⟨3, .unknown⟩, ("x" : Name)) ∧
      r.ctx.outcome v = .failed ⟨.undefinedVariable "x", some .unknown⟩ v.state := by
  intro use p ctx r
  let s : State := (r.start.openFrame [0]).define [1, 0] "x" .nil
  have hrest : r.Visits ⟨5, .executeAll [0] [use], s⟩ := by
    refine .tail .refl (.intro ?_)
    have hblock : r.ctx.run 5
        (.execute [0] (.block ⟨2, .unknown⟩ [.varDecl ⟨1, .unknown⟩ "x" none])) r.start =
          .done (.completion .normal) s := rfl
    exact .later hblock .now
  have huse : r.Visits ⟨4, .execute [0] use, s⟩ := hrest.tail (.intro .now)
  have hread : r.Visits ⟨3, .evaluate [0] (.reference ⟨3, .unknown⟩ "x"), s⟩ :=
    huse.tail (.intro .now)
  have hv : r.Visits ⟨2, .read [0] ⟨3, .unknown⟩ "x", s⟩ := hread.tail (.intro .now)
  have hknown (x : Name) (hx : (r.start.store.holder? x r.ctx.globals).isSome) :
      x ∈ [("clock" : Name)] := by
    obtain ⟨i, hi, hbinds⟩ := Store.holder?_isSome.mp hx
    have hi : i = 0 := List.mem_singleton.mp hi
    have hframe : r.start.store.frame 0 = [(Native.clock.name, .native .clock)] := rfl
    rw [hi, Store.binds, hframe, Frame.lookup_cons] at hbinds
    by_cases hx : x = Native.clock.name
    · exact List.mem_singleton.mpr hx
    · rw [if_neg hx] at hbinds
      cases hbinds
  have hreports : r.program.Reports ["clock"] ⟨3, .unknown⟩ "x" := ⟨none, by decide, by decide⟩
  refine ⟨by decide, _, _, hv, rfl, ?_⟩
  exact reported_access_fails (r := r) (by decide) rfl (by decide) hknown hreports (by decide)
    hv rfl

/-- A declaration in a branch at the top level binds a global that the resolver reports. -/
theorem reported_access_succeeds_behind_branch :
    let declaration : Stmt Node := .varDecl ⟨2, .unknown⟩ "x" none
    let p : Program Node :=
      [.ifElse ⟨3, .unknown⟩ (.literal ⟨1, .unknown⟩ (.bool true)) declaration none,
        .print ⟨5, .unknown⟩ (.reference ⟨4, .unknown⟩ "x")]
    let ctx : Context :=
      ⟨Command.start.1, (resolve ["clock"] true p).table, .standard (.stopped Number.zero)⟩
    (resolve ["clock"] true p).diagnostics = [⟨.undefined "x", .unknown⟩] ∧
      ∃ s, ctx.interpret 6 p Command.start.2 = .done () s ∧ s.output = #[("nil" : Text)] := by
  intro declaration p ctx
  exact ⟨by decide, _, rfl, rfl⟩

end Course

end Lox
