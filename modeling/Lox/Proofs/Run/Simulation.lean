import Mathlib.Order.Defs.PartialOrder
import Lox.Proofs.Run.Yields

/-! Two runs beside each other. Tasks of the two runs are related in a world that only grows; where
one run takes a detour that the other does not take, the tasks behind it are. If the plans there
match, each run ends as the other one does. -/

namespace Lox

/-- What is said of two runs: which tasks start beside each other, and how they end. -/
structure Simulation (World : Type) where
  tasks : World → Task → State → Task → State → Prop
  answers : World → Answer → State → Answer → State → Prop
  failures : World → RuntimeError → State → RuntimeError → State → Prop

def Simulation.flip {World : Type} (S : Simulation World) : Simulation World where
  tasks w task s task' s' := S.tasks w task' s' task s
  answers w a t a' t' := S.answers w a' t' a t
  failures w e t e' t' := S.failures w e' t' e t

/-- A task comes to another task, and ends as that one does. -/
structure Context.Leads (ctx : Context) (task : Task) (s : State) (task' : Task) (s' : State) :
    Prop where
  run : ∀ work, ctx.run work task s ≠ .exhausted → ctx.run work task' s' = ctx.run work task s
  yields : ∀ o, ctx.Yields task' s' o → ctx.Yields task s o

section

variable {ctx : Context} {task task₁ task₂ : Task} {s s₁ s₂ : State}

theorem Context.Leads.refl : ctx.Leads task s task s := ⟨fun _ _ => rfl, fun _ => id⟩

theorem Context.Leads.trans (h : ctx.Leads task s task₁ s₁) (h' : ctx.Leads task₁ s₁ task₂ s₂) :
    ctx.Leads task s task₂ s₂ := by
  refine ⟨fun work hne => ?_, fun o ho => h.yields o (h'.yields o ho)⟩
  have hfirst := h.run work hne
  rw [← hfirst]
  exact h'.run work (by rwa [hfirst])

/-- A task comes to its last part, if all before that is done without help. -/
theorem Context.leads_of_plan {next : Answer → State → Plan} {first : Task} {t : State} {a : Answer}
    (hplan : ctx.plan task s = .sub first s next) (hfirst : ctx.Yields first s (.done a t))
    (hnext : next a t = .last task₁ s₁) : ctx.Leads task s task₁ s₁ := by
  constructor
  · intro work hne
    cases work with
    | zero =>
      rcases run_zero task s with hnone | hfinish
      · exact absurd hnone hne
      · rw [hplan] at hfinish
        cases hfinish
    | succ work =>
      have hrun : ctx.run (work + 1) task s = (Plan.sub first s next).run (ctx.run work) := by
        rw [run_succ, hplan]
      rw [hrun] at hne ⊢
      rw [Plan.run] at hne ⊢
      cases hr : ctx.run work first s with
      | exhausted => rw [hr] at hne; exact absurd rfl hne
      | failed e u =>
        have hyields : ctx.Yields first s (.failed e u) :=
          ⟨Outcome.failed_ne_exhausted e u, work, hr⟩
        cases hyields.unique hfirst
      | done b u =>
        have hyields : ctx.Yields first s (.done b u) :=
          ⟨Outcome.done_ne_exhausted b u, work, hr⟩
        cases hyields.unique hfirst
        rw [hr] at hne
        dsimp only at hne ⊢
        rw [hnext, Plan.run_last] at hne ⊢
        exact run_mono (Nat.le_succ work) hne
  · intro o ho
    rw [yields_iff, hplan, Plan.yields_sub]
    refine .inl ⟨a, t, hfirst, ?_⟩
    rw [hnext]
    exact Plan.yields_last.mpr ho

end

namespace Simulation

variable {World : Type} [Preorder World]

/-- The two plans match from a world on: they come to related tasks, and match again behind them. -/
inductive Plans (S : Simulation World) : World → Plan → Plan → Prop where
  | done {w a t a' t'} : S.answers w a t a' t' → Plans S w (.finish (.done a t))
      (.finish (.done a' t'))
  | failed {w e t e' t'} : S.failures w e t e' t' → Plans S w (.finish (.failed e t))
      (.finish (.failed e' t'))
  | exhausted {w} : Plans S w (.finish .exhausted) (.finish .exhausted)
  | sub {w w' task s next task' s' next'} : w ≤ w' → S.tasks w' task s task' s' →
      (∀ w'' a t a' t', w' ≤ w'' → S.answers w'' a t a' t' →
        Plans S w'' (next a t) (next' a' t')) →
      Plans S w (.sub task s next) (.sub task' s' next')

/-- Both tasks end in the same way, with related answers or errors. -/
def Outcomes (S : Simulation World) (w : World) : Outcome Answer → Outcome Answer → Prop
  | .done a t, .done a' t' => S.answers w a t a' t'
  | .failed e t, .failed e' t' => S.failures w e t e' t'
  | _, _ => False

omit [Preorder World] in
theorem outcomes_flip {S : Simulation World} {w : World} {o o' : Outcome Answer} :
    S.flip.Outcomes w o o' ↔ S.Outcomes w o' o := by
  cases o <;> cases o' <;> exact Iff.rfl

/-- If the first task ends, with at most so much work, then so does the second one. -/
def Follows (S : Simulation World) (ctx ctx' : Context) (work : Nat) : Prop :=
  ∀ w task s task' s', S.tasks w task s task' s' → ctx.run work task s ≠ .exhausted →
    ∃ o' w', w ≤ w' ∧ ctx'.Yields task' s' o' ∧ S.Outcomes w' (ctx.run work task s) o'

/-- Related tasks come to tasks that have matching plans. -/
def Matches (S : Simulation World) (ctx ctx' : Context) : Prop :=
  ∀ w task s task' s', S.tasks w task s task' s' → ∃ task₁ s₁ task₁' s₁',
    ctx.Leads task s task₁ s₁ ∧ ctx'.Leads task' s' task₁' s₁' ∧
      S.Plans w (ctx.plan task₁ s₁) (ctx'.plan task₁' s₁')

variable {S : Simulation World} {ctx ctx' : Context} {w : World} {plan plan' : Plan}

theorem Plans.flip (h : S.Plans w plan plan') : S.flip.Plans w plan' plan := by
  induction h with
  | done h => exact .done h
  | failed h => exact .failed h
  | exhausted => exact .exhausted
  | sub hw htasks _ ih =>
    exact .sub hw htasks fun w'' a t a' t' hw'' ha => ih w'' a' t' a t hw'' ha

theorem Matches.flip (h : S.Matches ctx ctx') : S.flip.Matches ctx' ctx := by
  intro w task s task' s' htasks
  obtain ⟨task₁, s₁, task₁', s₁', hleads, hleads', hplans⟩ := h w task' s' task s htasks
  exact ⟨task₁', s₁', task₁, s₁, hleads', hleads, hplans.flip⟩

theorem Plans.finish {o : Outcome Answer} (h : S.Plans w (.finish o) plan')
    (hne : o ≠ .exhausted) : ∃ o', plan'.Yields ctx' o' ∧ S.Outcomes w o o' := by
  cases h with
  | @done _ _ _ a' t' h => exact ⟨.done a' t', ⟨Outcome.done_ne_exhausted a' t', 0, rfl⟩, h⟩
  | @failed _ _ _ e' t' h => exact ⟨.failed e' t', ⟨Outcome.failed_ne_exhausted e' t', 0, rfl⟩, h⟩
  | exhausted => exact absurd rfl hne

private theorem Plans.follow {work : Nat} (h : S.Plans w plan plan')
    (hrecur : S.Follows ctx ctx' work) (hne : plan.run (ctx.run work) ≠ .exhausted) :
    ∃ o' w', w ≤ w' ∧ plan'.Yields ctx' o' ∧ S.Outcomes w' (plan.run (ctx.run work)) o' := by
  induction h with
  | done h =>
    obtain ⟨o', ho'⟩ := (Plans.done h).finish hne
    exact ⟨o', _, le_refl _, ho'⟩
  | failed h =>
    obtain ⟨o', ho'⟩ := (Plans.failed h).finish hne
    exact ⟨o', _, le_refl _, ho'⟩
  | exhausted => exact absurd rfl hne
  | @sub w w₁ task s next task' s' next' hw htasks _ ih =>
    rw [Plan.run] at hne ⊢
    cases hr : ctx.run work task s with
    | exhausted => rw [hr] at hne; exact absurd rfl hne
    | failed e t =>
      obtain ⟨o', w₂, hw₂, hyields, houtcome⟩ := hrecur w₁ task s task' s' htasks (by rw [hr]; simp)
      rw [hr] at houtcome
      cases o' with
      | failed e' t' =>
        exact ⟨_, w₂, le_trans hw hw₂, Plan.Yields.sub_failed hyields, houtcome⟩
      | _ => exact houtcome.elim
    | done a t =>
      obtain ⟨o', w₂, hw₂, hyields, houtcome⟩ := hrecur w₁ task s task' s' htasks (by rw [hr]; simp)
      rw [hr] at houtcome hne
      cases o' with
      | done a' t' =>
        obtain ⟨o', w₃, hw₃, hnext, houtcome'⟩ := ih w₂ a t a' t' hw₂ houtcome hne
        exact ⟨o', w₃, le_trans hw (le_trans hw₂ hw₃), Plan.Yields.sub hyields hnext, houtcome'⟩
      | _ => exact houtcome.elim

/-- A task ends if a related one does. -/
theorem Matches.follows (h : S.Matches ctx ctx') (work : Nat) : S.Follows ctx ctx' work := by
  induction work with
  | zero =>
    intro w task s task' s' htasks hne
    obtain ⟨task₁, s₁, task₁', s₁', hleads, hleads', hplans⟩ := h w task s task' s' htasks
    have hrun := hleads.run 0 hne
    rcases Context.run_zero task₁ s₁ with hnone | hfinish
    · rw [← hrun] at hne
      exact absurd hnone hne
    · rw [hfinish, hrun] at hplans
      obtain ⟨o', hyields, houtcome⟩ := hplans.finish hne
      exact ⟨o', w, le_refl w, hleads'.yields o' (Context.yields_iff.mpr hyields), houtcome⟩
  | succ work ih =>
    intro w task s task' s' htasks hne
    obtain ⟨task₁, s₁, task₁', s₁', hleads, hleads', hplans⟩ := h w task s task' s' htasks
    have hrun := hleads.run (work + 1) hne
    rw [← hrun] at hne ⊢
    rw [Context.run_succ] at hne ⊢
    obtain ⟨o', w', hw, hyields, houtcome⟩ := hplans.follow ih hne
    exact ⟨o', w', hw, hleads'.yields o' (Context.yields_iff.mpr hyields), houtcome⟩

end Simulation

end Lox
