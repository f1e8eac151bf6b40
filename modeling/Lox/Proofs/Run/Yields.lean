import Lox.Proofs.Run.Plan

/-! How a run ends when it has enough work. More work changes no end, so that each task has at most
one, and the ends of a plan are put together from those of its tasks. -/

namespace Lox

section

variable {α : Type}

theorem Outcome.done_ne_exhausted (a : α) (s : State) : Outcome.done a s ≠ .exhausted := by simp

theorem Outcome.failed_ne_exhausted (e : RuntimeError) (s : State) :
    (Outcome.failed e s : Outcome α) ≠ .exhausted := by
  simp

end

/-- With enough work the computation ends so. One that has no end runs for ever. -/
def Ends {α : Type} (m : Nat → Outcome α) (o : Outcome α) : Prop :=
  o ≠ .exhausted ∧ ∃ work, m work = o

/-- A computation that has ended ends in the same way with more work. -/
def Steady {α : Type} (m : Nat → Outcome α) : Prop :=
  ∀ work work', work ≤ work' → m work ≠ .exhausted → m work' = m work

section

variable {α β : Type} {m : Nat → Eval α} {f : Nat → α → Eval β} {s : State}

theorem Steady.eq {m : Nat → Outcome α} (h : Steady m) {work work' : Nat} (hle : work ≤ work')
    {o : Outcome α} (ho : m work = o) (hne : o ≠ .exhausted) : m work' = o := by
  subst ho
  exact h work work' hle hne

theorem Steady.unique {m : Nat → Outcome α} (h : Steady m) {o o' : Outcome α} (ho : Ends m o)
    (ho' : Ends m o') : o = o' := by
  obtain ⟨hne, work, hwork⟩ := ho
  obtain ⟨hne', work', hwork'⟩ := ho'
  rcases Nat.le_total work work' with hle | hle
  · rw [← hwork', h.eq hle hwork hne]
  · rw [← hwork, h.eq hle hwork' hne']

theorem Steady.bind (hm : Steady fun work => m work s)
    (hf : ∀ a t, Ends (fun work => m work s) (.done a t) → Steady fun work => f work a t) :
    Steady fun work => (m work >>= f work) s := by
  intro work work' hle hne
  dsimp only at hne ⊢
  cases ho : m work s with
  | exhausted => rw [Eval.bind_of_exhausted ho] at hne; exact absurd rfl hne
  | failed e t =>
    have ho' : m work' s = .failed e t := hm.eq hle ho (Outcome.failed_ne_exhausted e t)
    rw [Eval.bind_of_failed ho, Eval.bind_of_failed ho']
  | done a t =>
    have ho' : m work' s = .done a t := hm.eq hle ho (Outcome.done_ne_exhausted a t)
    rw [Eval.bind_of_done ho] at hne ⊢
    rw [Eval.bind_of_done ho']
    exact hf a t ⟨Outcome.done_ne_exhausted a t, work, ho⟩ work work' hle hne

/-- Two computations one after the other end as the second does, or as the first one fails. -/
theorem ends_bind (hm : Steady fun work => m work s)
    (hf : ∀ a t, Ends (fun work => m work s) (.done a t) → Steady fun work => f work a t)
    {o : Outcome β} : Ends (fun work => (m work >>= f work) s) o ↔
      (∃ a t, Ends (fun work => m work s) (.done a t) ∧ Ends (fun work => f work a t) o) ∨
        ∃ e t, o = .failed e t ∧ Ends (fun work => m work s) (.failed e t) := by
  constructor
  · rintro ⟨hne, work, hwork⟩
    dsimp only at hwork
    cases ho : m work s with
    | exhausted =>
      rw [Eval.bind_of_exhausted ho] at hwork
      exact absurd hwork.symm hne
    | failed e t =>
      rw [Eval.bind_of_failed ho] at hwork
      exact .inr ⟨e, t, hwork.symm, Outcome.failed_ne_exhausted e t, work, ho⟩
    | done a t =>
      rw [Eval.bind_of_done ho] at hwork
      exact .inl ⟨a, t, ⟨Outcome.done_ne_exhausted a t, work, ho⟩, hne, work, hwork⟩
  · rintro (⟨a, t, hfirst, hne, work', hwork'⟩ | ⟨e, t, rfl, -, work, hwork⟩)
    · obtain ⟨hfirstne, work, hwork⟩ := id hfirst
      refine ⟨hne, max work work', ?_⟩
      have ho : m (max work work') s = .done a t := hm.eq (Nat.le_max_left ..) hwork hfirstne
      dsimp only
      rw [Eval.bind_of_done ho]
      exact (hf a t hfirst).eq (Nat.le_max_right ..) hwork' hne
    · exact ⟨Outcome.failed_ne_exhausted e t, work, Eval.bind_of_failed hwork _⟩

end

/-- With enough work the task ends so. -/
def Context.Yields (ctx : Context) (task : Task) (s : State) (o : Outcome Answer) : Prop :=
  o ≠ .exhausted ∧ ∃ work, ctx.run work task s = o

/-- With enough work for its tasks the plan ends so. -/
def Plan.Yields (ctx : Context) (plan : Plan) (o : Outcome Answer) : Prop :=
  o ≠ .exhausted ∧ ∃ work, plan.run (ctx.run work) = o

theorem Plan.run_mono {recur recur' : Task → Eval Answer}
    (h : ∀ task s, recur task s ≠ .exhausted → recur' task s = recur task s) (plan : Plan)
    (hne : plan.run recur ≠ .exhausted) : plan.run recur' = plan.run recur := by
  induction plan with
  | finish o => rfl
  | sub task s next ih =>
    rw [run] at hne
    cases hr : recur task s with
    | exhausted => rw [hr] at hne; exact absurd rfl hne
    | failed e t => rw [run, run, h task s (by rw [hr]; simp), hr]
    | done a t =>
      rw [hr] at hne
      rw [run, run, h task s (by rw [hr]; simp), hr]
      exact ih a t hne

namespace Context

variable {ctx : Context} {work work' : Nat} {task : Task} {s : State} {o o' : Outcome Answer}

/-- A task that has ended ends in the same way with more work. -/
theorem run_mono (hle : work ≤ work') (hne : ctx.run work task s ≠ .exhausted) :
    ctx.run work' task s = ctx.run work task s := by
  induction work generalizing work' task s with
  | zero =>
    cases task with
    | read | write => rfl
    | _ => exact absurd rfl hne
  | succ work ih =>
    obtain ⟨more, rfl⟩ : ∃ more, work' = more + 1 := ⟨work' - 1, by omega⟩
    rw [run_succ] at hne
    rw [run_succ, run_succ]
    exact Plan.run_mono (fun task s h => ih (by omega) h) _ hne

theorem Yields.unique (h : ctx.Yields task s o) (h' : ctx.Yields task s o') : o = o' := by
  obtain ⟨hne, work, rfl⟩ := h
  obtain ⟨hne', work', rfl⟩ := h'
  rcases Nat.le_total work work' with hle | hle
  · exact (run_mono hle hne).symm
  · exact run_mono hle hne'

theorem yields_iff : ctx.Yields task s o ↔ (ctx.plan task s).Yields ctx o := by
  constructor
  · rintro ⟨hne, work, rfl⟩
    refine ⟨hne, work, ?_⟩
    have hmore := run_mono (Nat.le_add_right work 1) hne
    rwa [run_succ] at hmore
  · rintro ⟨hne, work, rfl⟩
    exact ⟨hne, work + 1, run_succ task s⟩

end Context

namespace Plan

variable {ctx : Context} {task : Task} {s t : State} {next : Answer → State → Plan} {plan : Plan}
  {o o' : Outcome Answer} {a : Answer} {e : RuntimeError}

theorem yields_finish : (finish o).Yields ctx o' ↔ o' ≠ .exhausted ∧ o = o' :=
  and_congr_right fun _ => ⟨fun ⟨_, h⟩ => h, fun h => ⟨0, h⟩⟩

theorem yields_done : (done a s).Yields ctx o ↔ o = .done a s := by
  rw [done, yields_finish]
  constructor
  · exact fun h => h.2.symm
  · rintro rfl
    exact ⟨Outcome.done_ne_exhausted a s, rfl⟩

theorem Yields.sub (h : ctx.Yields task s (.done a t)) (hnext : (next a t).Yields ctx o) :
    (Plan.sub task s next).Yields ctx o := by
  obtain ⟨-, work, hwork⟩ := h
  obtain ⟨hne, work', rfl⟩ := hnext
  refine ⟨hne, max work work', ?_⟩
  have hfirst : ctx.run (max work work') task s = .done a t := by
    rw [← hwork]
    exact Context.run_mono (Nat.le_max_left ..) (by rw [hwork]; simp)
  rw [Plan.run, hfirst]
  exact run_mono (fun _ _ => Context.run_mono (Nat.le_max_right ..)) _ hne

theorem Yields.sub_failed (h : ctx.Yields task s (.failed e t)) :
    (Plan.sub task s next).Yields ctx (.failed e t) := by
  obtain ⟨hne, work, hwork⟩ := h
  refine ⟨hne, work, ?_⟩
  rw [Plan.run, hwork]

/-- The end of a plan is that of its first task, or that of the plan for the answer. -/
theorem yields_sub : (Plan.sub task s next).Yields ctx o ↔
    (∃ a t, ctx.Yields task s (.done a t) ∧ (next a t).Yields ctx o) ∨
      ∃ e t, o = .failed e t ∧ ctx.Yields task s (.failed e t) := by
  constructor
  · rintro ⟨hne, work, rfl⟩
    rw [Plan.run] at hne ⊢
    cases hr : ctx.run work task s with
    | exhausted => rw [hr] at hne; exact absurd rfl hne
    | failed e t => exact .inr ⟨e, t, rfl, Outcome.failed_ne_exhausted e t, work, hr⟩
    | done a t =>
      rw [hr] at hne
      exact .inl ⟨a, t, ⟨Outcome.done_ne_exhausted a t, work, hr⟩, hne, work, rfl⟩
  · rintro (⟨a, t, h, hnext⟩ | ⟨e, t, rfl, h⟩)
    · exact .sub h hnext
    · exact .sub_failed h

theorem yields_last : (Plan.last task s).Yields ctx o ↔ ctx.Yields task s o := by
  unfold Yields Context.Yields
  simp only [run_last]

end Plan

/-- A program ends as the task of executing its statements in the globals does. -/
theorem Context.ends_interpret {ctx : Context} {program : Program Node} {s : State}
    {o : Outcome Unit} : Ends (fun work => ctx.interpret work program s) o ↔
      ∃ o', ctx.Yields (.executeAll ctx.globals program) s o' ∧ o'.map (fun _ => ()) = o := by
  constructor
  · rintro ⟨hne, work, hwork⟩
    dsimp only at hwork
    rw [interpret_eq_run] at hwork
    refine ⟨_, ⟨fun heq => ?_, work, rfl⟩, hwork⟩
    rw [heq] at hwork
    exact hne hwork.symm
  · rintro ⟨o', ⟨hne, work, rfl⟩, rfl⟩
    refine ⟨fun heq => hne ?_, work, interpret_eq_run program⟩
    cases ho : ctx.run work (.executeAll ctx.globals program) s with
    | exhausted => rfl
    | _ => rw [ho] at heq; cases heq

theorem Context.steady_interpret {ctx : Context} (program : Program Node) (s : State) :
    Steady fun work => ctx.interpret work program s := by
  intro work work' hle hne
  dsimp only at hne ⊢
  rw [interpret_eq_run] at hne ⊢
  rw [interpret_eq_run, run_mono hle]
  intro ho
  rw [ho] at hne
  exact hne rfl

/-- A statement that ends so keeps the ones after it from running. -/
def Outcome.Stops : Outcome Answer → Prop
  | .done (.completion (.returned _)) _ | .failed .. => True
  | _ => False

namespace Context

variable {ctx : Context} {env : Environment} {s : State} {o : Outcome Answer}

theorem yields_nil : ctx.Yields (.executeAll env []) s o ↔ o = .done (.completion .normal) s :=
  yields_iff.trans Plan.yields_done

theorem yields_cons {stmt : Stmt Node} {rest : Program Node} :
    ctx.Yields (.executeAll env (stmt :: rest)) s o ↔
      (∃ t, ctx.Yields (.execute env stmt) s (.done (.completion .normal) t) ∧
        ctx.Yields (.executeAll env rest) t o) ∨
      (o.Stops ∧ ctx.Yields (.execute env stmt) s o) := by
  rw [yields_iff, plan, planStmts, Plan.completion, Plan.yields_sub]
  constructor
  · rintro (⟨a, t, h, hnext⟩ | ⟨e, t, rfl, h⟩)
    · cases a with
      | completion c =>
        cases c with
        | normal => exact .inl ⟨t, h, Plan.yields_last.mp hnext⟩
        | returned v =>
          cases Plan.yields_done.mp hnext
          exact .inr ⟨trivial, h⟩
      | _ => exact absurd (Plan.yields_finish.mp hnext).2.symm (Plan.yields_finish.mp hnext).1
    · exact .inr ⟨trivial, h⟩
  · rintro (⟨t, h, hrest⟩ | ⟨hstops, h⟩)
    · exact .inl ⟨_, t, h, Plan.yields_last.mpr hrest⟩
    · cases o with
      | failed e t => exact .inr ⟨e, t, rfl, h⟩
      | exhausted => exact hstops.elim
      | done a t =>
        cases a with
        | completion c =>
          cases c with
          | normal => exact hstops.elim
          | returned v => exact .inl ⟨_, t, h, Plan.yields_done.mpr rfl⟩
        | _ => exact hstops.elim

/-- Statements end as the first of them do if these stop, and else as the others do afterwards. -/
theorem yields_append {p q : Program Node} : ctx.Yields (.executeAll env (p ++ q)) s o ↔
    (∃ t, ctx.Yields (.executeAll env p) s (.done (.completion .normal) t) ∧
      ctx.Yields (.executeAll env q) t o) ∨
    (o.Stops ∧ ctx.Yields (.executeAll env p) s o) := by
  induction p generalizing s with
  | nil =>
    constructor
    · exact fun h => .inl ⟨s, yields_nil.mpr rfl, h⟩
    · rintro (⟨t, hs, h⟩ | ⟨hstops, h⟩)
      · cases yields_nil.mp hs
        exact h
      · rw [yields_nil] at h
        subst h
        exact hstops.elim
  | cons stmt rest ih =>
    rw [List.cons_append, yields_cons]
    constructor
    · rintro (⟨u, hu, h⟩ | ⟨hstops, h⟩)
      · rcases ih.mp h with ⟨t, ht, h⟩ | ⟨hstops, h⟩
        · exact .inl ⟨t, yields_cons.mpr (.inl ⟨u, hu, ht⟩), h⟩
        · exact .inr ⟨hstops, yields_cons.mpr (.inl ⟨u, hu, h⟩)⟩
      · exact .inr ⟨hstops, yields_cons.mpr (.inr ⟨hstops, h⟩)⟩
    · rintro (⟨t, ht, h⟩ | ⟨hstops, h⟩)
      · rcases yields_cons.mp ht with ⟨u, hu, ht⟩ | ⟨hnot, -⟩
        · exact .inl ⟨u, hu, ih.mpr (.inl ⟨t, ht, h⟩)⟩
        · exact hnot.elim
      · rcases yields_cons.mp h with ⟨u, hu, h⟩ | ⟨-, h⟩
        · exact .inl ⟨u, hu, ih.mpr (.inr ⟨hstops, h⟩)⟩
        · exact .inr ⟨hstops, h⟩

end Context

end Lox
