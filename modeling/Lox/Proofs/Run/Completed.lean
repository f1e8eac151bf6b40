import Lox.Proofs.Run.Globals

/-! The statements of a program that complete. They can be found by running the program, and say
which names it has added when it ends. -/

namespace Lox

namespace Context

/-- The statements at the front of a list that complete, one after the other. -/
def completed (ctx : Context) (work : Nat) (env : Environment) (s : State) :
    Program Node → Program Node
  | [] => []
  | stmt :: rest =>
    match ctx.execute work env stmt s with
    | .done .normal t => stmt :: ctx.completed work env t rest
    | _ => []

variable {ctx : Context} {work : Nat} {env : Environment} {s t : State} {stmt : Stmt Node}
  {rest stmts : Program Node} {i : Nat}

/-- Where the work suffices for a list of statements, the first one completes and the others end as
the list does, or the first one stops the others. -/
theorem run_executeAll_cons {o : Outcome Answer}
    (h : ctx.run work (.executeAll env (stmt :: rest)) s = o) (hne : o ≠ .exhausted) :
    (∃ t, ctx.run work (.execute env stmt) s = .done (.completion .normal) t ∧
      ctx.run work (.executeAll env rest) t = o) ∨
    o.Stops ∧ ctx.run work (.execute env stmt) s = o := by
  cases work with
  | zero => exact absurd h.symm hne
  | succ work =>
    have hmore (task : Task) (t : State) {o : Outcome Answer} (h : ctx.run work task t = o)
        (hne : o ≠ .exhausted) : ctx.run (work + 1) task t = o :=
      h ▸ run_mono (Nat.le_add_right work 1) (h ▸ hne)
    rw [run_succ, plan, planStmts, Plan.completion, Plan.run] at h
    cases hr : ctx.run work (.execute env stmt) s with
    | exhausted =>
      rw [hr] at h
      exact absurd h.symm hne
    | failed e t =>
      rw [hr] at h
      subst h
      exact .inr ⟨trivial, hmore _ s hr hne⟩
    | done a t =>
      rw [hr] at h
      cases a with
      | completion c =>
        cases c with
        | normal =>
          exact .inl ⟨t, hmore _ s hr (Outcome.done_ne_exhausted _ t),
            hmore _ t (Plan.run_last.symm.trans h) hne⟩
        | returned v =>
          subst h
          exact .inr ⟨trivial, hmore _ s hr (Outcome.done_ne_exhausted _ t)⟩
      | _ => exact absurd h.symm hne

private theorem completed_cons_of_done (h : ctx.run work (.execute env stmt) s =
    .done (.completion .normal) t) :
    ctx.completed work env s (stmt :: rest) = stmt :: ctx.completed work env t rest := by
  have hdone : ctx.execute work env stmt s = .done .normal t := by
    cases ho : ctx.execute work env stmt s <;> rw [run, ho] at h <;> cases h
    rfl
  rw [completed, hdone]

private theorem completed_cons_of_stops {o : Outcome Answer}
    (h : ctx.run work (.execute env stmt) s = o)
    (hstops : o.Stops) : ctx.completed work env s (stmt :: rest) = [] := by
  rw [completed]
  split
  · rename_i t hdone
    rw [run, hdone] at h
    subst h
    exact hstops.elim
  · rfl

/-- However statements end, those that complete have run one after the other, and either these are
all, or the next one has stopped the others. -/
theorem yields_completed {o : Outcome Answer} (h : ctx.run work (.executeAll env stmts) s = o)
    (hne : o ≠ .exhausted) : ∃ others u, stmts = ctx.completed work env s stmts ++ others ∧
      ctx.Yields (.executeAll env (ctx.completed work env s stmts)) s
        (.done (.completion .normal) u) ∧
      (others = [] ∧ o = .done (.completion .normal) u ∨ ∃ stmt later, others = stmt :: later ∧
        ctx.Yields (.execute env stmt) u o ∧ o.Stops) := by
  induction stmts generalizing s with
  | nil => exact ⟨[], s, rfl, yields_nil.mpr rfl, .inl ⟨rfl, yields_nil.mp ⟨hne, work, h⟩⟩⟩
  | cons stmt rest ih =>
    rcases run_executeAll_cons h hne with ⟨t, hstmt, hrest⟩ | ⟨hstops, hstmt⟩
    · obtain ⟨others, u, happend, hcompleted, hend⟩ := ih hrest
      rw [completed_cons_of_done hstmt]
      refine ⟨others, u, congrArg (stmt :: ·) happend, ?_, hend⟩
      exact yields_cons.mpr (.inl ⟨t, ⟨nofun, work, hstmt⟩, hcompleted⟩)
    · rw [completed_cons_of_stops hstmt hstops]
      exact ⟨stmt :: rest, s, rfl, yields_nil.mpr rfl,
        .inr ⟨stmt, rest, rfl, ⟨hne, work, hstmt⟩, hstops⟩⟩

/-- However statements end, they have added the names that those declare that have completed. -/
theorem names_completed {o : Outcome Answer} (h : ctx.run work (.executeAll env stmts) s = o)
    (ht : o.state? = some t) (hscoped : Program.Scoped stmts) (henv : env.head? = some i)
    (hi : i < s.store.frames.size) : t.store.names env = s.store.names env ++
      newNames (s.store.names env) (Program.declared (ctx.completed work env s stmts)) := by
  have hne : o ≠ .exhausted := by
    rintro rfl
    cases ht
  obtain ⟨others, u, happend, hcompleted, hend⟩ := yields_completed h hne
  rw [happend] at hscoped
  obtain ⟨hfront, hothers⟩ := Program.Scoped.append.mp hscoped
  rw [← names_of_completed hfront hcompleted henv hi]
  rcases hend with ⟨-, rfl⟩ | ⟨stmt, later, rfl, hstmt, hstops⟩
  · cases ht
    rfl
  · have hu : i < u.store.frames.size := Nat.lt_of_lt_of_le hi (hcompleted.grows rfl).size
    exact names_of_stops hothers.1 hstmt hstops ht henv hu

end Context

end Lox
