import Lox.Proofs.Resolution.Findings
import Lox.Proofs.Run.Yields

/-! Code without a return outside functions. Whatever it does in a run, it ends with an error or
completes; a return in the body of a function ends with the call. -/

namespace Lox

namespace Plan

variable {recur : Task → Eval Answer} {task : Task} {s t : State} {a : Answer}

theorem run_sub_done {next : Answer → State → Plan}
    (ho : (sub task s next).run recur = .done a t) :
    ∃ b u, recur task s = .done b u ∧ (next b u).run recur = .done a t := by
  rw [run] at ho
  cases hr : recur task s with
  | done b u =>
    rw [hr] at ho
    exact ⟨b, u, rfl, ho⟩
  | failed e u => rw [hr] at ho; cases ho
  | exhausted => rw [hr] at ho; cases ho

theorem run_value_done {next : Value → State → Plan}
    (ho : (value task s next).run recur = .done a t) :
    ∃ v u, recur task s = .done (.value v) u ∧ (next v u).run recur = .done a t := by
  obtain ⟨b, u, hr, ho⟩ := run_sub_done ho
  cases b with
  | value v => exact ⟨v, u, hr, ho⟩
  | _ => cases ho

private theorem run_completion_done {next : Completion → State → Plan}
    (ho : (completion task s next).run recur = .done a t) :
    ∃ c u, recur task s = .done (.completion c) u ∧ (next c u).run recur = .done a t := by
  obtain ⟨b, u, hr, ho⟩ := run_sub_done ho
  cases b with
  | completion c => exact ⟨c, u, hr, ho⟩
  | _ => cases ho

end Plan

/-- The resolver finds no return in the code, where that is not inside a function. -/
def Task.ReturnFree : Task → Prop
  | .execute _ s => ∃ scopes, ∀ l, .fault .topLevelReturn l ∉ (s.findings false scopes).1
  | .executeAll _ p => ∃ scopes, ∀ l, .fault .topLevelReturn l ∉ (Program.findings false scopes p).1
  | .executeLoop _ _ body =>
    ∃ scopes, ∀ l, .fault .topLevelReturn l ∉ (body.findings false scopes).1
  | _ => False

section

variable {ctx : Context} {recur : Task → Eval Answer} {env : Environment} {s t : State} {a : Answer}

private theorem Stmt.completes {stmt : Stmt Node} (h : Task.ReturnFree (.execute env stmt))
    (hrecur : ∀ task s a t, recur task s = .done a t → task.ReturnFree →
      a = .completion .normal)
    (ho : (Context.planStmt env s stmt).run recur = .done a t) : a = .completion .normal := by
  obtain ⟨scopes, hscopes⟩ := h
  cases stmt with
  | expression n e | print n e =>
    obtain ⟨v, u, -, ho⟩ := Plan.run_value_done ho
    cases ho
    rfl
  | varDecl n x e =>
    cases e with
    | none => cases ho; rfl
    | some e =>
      obtain ⟨v, u, -, ho⟩ := Plan.run_value_done ho
      cases ho
      rfl
  | block n body =>
    rw [Context.planStmt, Plan.run_last] at ho
    exact hrecur _ _ _ _ ho ⟨_, hscopes⟩
  | ifElse n c t e =>
    obtain ⟨v, u, -, ho⟩ := Plan.run_value_done ho
    cases e with
    | none =>
      simp only [findings, List.mem_append, not_or] at hscopes
      split at ho
      · rw [Plan.run_last] at ho
        exact hrecur _ _ _ _ ho ⟨_, fun l => (hscopes l).2⟩
      · cases ho
        rfl
    | some e =>
      simp only [findings, List.mem_append, not_or] at hscopes
      split at ho
      · rw [Plan.run_last] at ho
        exact hrecur _ _ _ _ ho ⟨_, fun l => (hscopes l).1.2⟩
      · rw [Plan.run_last] at ho
        exact hrecur _ _ _ _ ho ⟨_, fun l => (hscopes l).2⟩
  | whileLoop n c body =>
    rw [Context.planStmt, Plan.run_last] at ho
    simp only [findings, List.mem_append, not_or] at hscopes
    exact hrecur _ _ _ _ ho ⟨_, fun l => (hscopes l).2⟩
  | funDecl n x params body => cases ho; rfl
  | returnStmt n e =>
    refine absurd ?_ (hscopes n.location)
    simp [findings]

/-- Code without a return outside functions runs to its end. -/
theorem Context.completes {work : Nat} {task : Task} (ho : ctx.run work task s = .done a t)
    (h : task.ReturnFree) : a = .completion .normal := by
  induction work generalizing task s a t with
  | zero =>
    cases task with
    | read | write => exact h.elim
    | _ => cases ho
  | succ work ih =>
    rw [run_succ] at ho
    cases task with
    | execute env stmt => exact stmt.completes h (fun _ _ _ _ => ih) ho
    | executeAll env p =>
      obtain ⟨scopes, hscopes⟩ := h
      cases p with
      | nil => cases ho; rfl
      | cons stmt rest =>
        simp only [Program.findings, List.mem_append, not_or] at hscopes
        obtain ⟨c, u, hr, ho⟩ := Plan.run_completion_done ho
        cases ih hr ⟨_, fun l => (hscopes l).1⟩
        dsimp only at ho
        rw [Plan.run_last] at ho
        exact ih ho ⟨_, fun l => (hscopes l).2⟩
    | executeLoop env c body =>
      obtain ⟨v, u, -, ho⟩ := Plan.run_value_done ho
      split at ho
      · obtain ⟨d, u', hr, ho⟩ := Plan.run_completion_done ho
        cases ih hr h
        dsimp only at ho
        rw [Plan.run_last] at ho
        exact ih ho h
      · cases ho
        rfl
    | _ => exact h.elim

end

section

variable {ctx : Context} {p : Program Node} {s t : State}

theorem Context.ends_interpret_failed {e : RuntimeError} :
    Ends (fun work => ctx.interpret work p s) (.failed e t) ↔
      ctx.Yields (.executeAll ctx.globals p) s (.failed e t) := by
  rw [ends_interpret]
  constructor
  · rintro ⟨o, h, ho⟩
    cases o with
    | failed e' u => cases ho; exact h
    | _ => cases ho
  · exact fun h => ⟨_, h, rfl⟩

/-- Without a return at the top level a program that is interpreted without an error runs to its
end. -/
theorem Context.ends_interpret_done
    (hreturn : ∀ l, .fault .topLevelReturn l ∉ (Program.findings false [] p).1) :
    Ends (fun work => ctx.interpret work p s) (.done () t) ↔
      ctx.Yields (.executeAll ctx.globals p) s (.done (.completion .normal) t) := by
  rw [ends_interpret]
  constructor
  · rintro ⟨o, h, ho⟩
    cases o with
    | done a u =>
      cases ho
      obtain ⟨-, work, hwork⟩ := id h
      rwa [completes hwork ⟨[], hreturn⟩] at h
    | _ => cases ho
  · exact fun h => ⟨_, h, rfl⟩

end

end Lox
