import Mathlib.Data.List.Forall2
import Lox.Proofs.Run.Steps

/-! Two runs in step with each other. A coupling says how states, values and tasks of the two runs
are related; if the plans of related tasks come to related tasks one after the other, the runs end
in the same way after the same work, or both need more. -/

namespace Lox

structure Coupling where
  states : State → State → Prop
  values : Value → Value → Prop
  tasks : Task → Task → Prop
  /-- Reading and writing a variable stand beside the same. -/
  accesses : ∀ {task task'}, tasks task task' → task.access?.isSome = task'.access?.isSome

/-- A task that is no access needs work. -/
theorem Context.run_zero_of_no_access {ctx : Context} {task : Task}
    (h : task.access?.isSome = false) (s : State) : ctx.run 0 task s = .exhausted := by
  cases task with
  | read | write => cases h
  | _ => rfl

/-- An access has been carried out as soon as it is planned. -/
theorem Context.plan_of_access {ctx : Context} {task : Task} (h : task.access?.isSome = true)
    (s : State) : ctx.plan task s = .finish (ctx.run 0 task s) := by
  cases task with
  | read | write => rfl
  | _ => cases h

namespace Coupling

variable (C : Coupling)

inductive Answers : Answer → Answer → Prop where
  | value {v v'} : C.values v v' → Answers (.value v) (.value v')
  | values {vs vs'} : List.Forall₂ C.values vs vs' → Answers (.values vs) (.values vs')
  | normal : Answers (.completion .normal) (.completion .normal)
  | returned {v v'} : C.values v v' →
      Answers (.completion (.returned v)) (.completion (.returned v'))
  | written : Answers .written .written

/-- Both end in the same way; errors are the same. -/
inductive Outcomes : Outcome Answer → Outcome Answer → Prop where
  | done {a a' s s'} : C.Answers a a' → C.states s s' → Outcomes (.done a s) (.done a' s')
  | failed {s s'} (e : RuntimeError) : C.states s s' → Outcomes (.failed e s) (.failed e s')
  | exhausted : Outcomes .exhausted .exhausted

/-- Both plans come to related tasks, and stay in step behind them. -/
inductive Plans : Plan → Plan → Prop where
  | finish {o o'} : C.Outcomes o o' → Plans (.finish o) (.finish o')
  | sub {task task' s s' next next'} : C.tasks task task' → C.states s s' →
      (∀ a a' t t', C.Answers a a' → C.states t t' → Plans (next a t) (next' a' t')) →
      Plans (.sub task s next) (.sub task' s' next')

/-- The plans of related tasks are in step. -/
def Kept (ctx ctx' : Context) : Prop :=
  ∀ task task' s s', C.tasks task task' → C.states s s' →
    C.Plans (ctx.plan task s) (ctx'.plan task' s')

variable {C} {task task' : Task} {s s' : State}

section

variable {next next' : Value → State → Plan} {nexts nexts' : List Value → State → Plan}
  {after after' : Completion → State → Plan}

theorem Plans.done {a a' : Answer} (ha : C.Answers a a') (hs : C.states s s') :
    C.Plans (.done a s) (.done a' s') :=
  .finish (.done ha hs)

theorem Plans.failed (e : RuntimeError) (hs : C.states s s') :
    C.Plans (.finish (.failed e s)) (.finish (.failed e s')) :=
  .finish (.failed e hs)

theorem Plans.last (htask : C.tasks task task') (hs : C.states s s') :
    C.Plans (.last task s) (.last task' s') :=
  .sub htask hs fun _ _ _ _ ha ht => .done ha ht

theorem Plans.value (htask : C.tasks task task') (hs : C.states s s')
    (hnext : ∀ v v' t t', C.values v v' → C.states t t' → C.Plans (next v t) (next' v' t')) :
    C.Plans (.value task s next) (.value task' s' next') := by
  refine .sub htask hs fun a a' t t' ha ht => ?_
  cases ha with
  | value hv => exact hnext _ _ t t' hv ht
  | _ => exact .finish .exhausted

theorem Plans.values (htask : C.tasks task task') (hs : C.states s s')
    (hnext : ∀ vs vs' t t', List.Forall₂ C.values vs vs' → C.states t t' →
      C.Plans (nexts vs t) (nexts' vs' t')) :
    C.Plans (.values task s nexts) (.values task' s' nexts') := by
  refine .sub htask hs fun a a' t t' ha ht => ?_
  cases ha with
  | values hvs => exact hnext _ _ t t' hvs ht
  | _ => exact .finish .exhausted

/-- Statements complete in the same way. -/
theorem Plans.completion (htask : C.tasks task task') (hs : C.states s s')
    (hnormal : ∀ t t', C.states t t' → C.Plans (after .normal t) (after' .normal t'))
    (hreturned : ∀ v v' t t', C.values v v' → C.states t t' →
      C.Plans (after (.returned v) t) (after' (.returned v') t')) :
    C.Plans (.completion task s after) (.completion task' s' after') := by
  refine .sub htask hs fun a a' t t' ha ht => ?_
  cases ha with
  | normal => exact hnormal t t' ht
  | returned hv => exact hreturned _ _ t t' hv ht
  | _ => exact .finish .exhausted

end

/-- With what is asked of them in step, plans end in the same way. -/
theorem Plans.run {recur recur' : Task → Eval Answer} {plan plan' : Plan}
    (hrecur : ∀ task task' s s', C.tasks task task' → C.states s s' →
      C.Outcomes (recur task s) (recur' task' s'))
    (h : C.Plans plan plan') : C.Outcomes (plan.run recur) (plan'.run recur') := by
  induction h with
  | finish h => exact h
  | @sub task task' s s' next next' htask hs _ ih =>
    have hsub := hrecur task task' s s' htask hs
    rw [Plan.run, Plan.run]
    generalize recur task s = o at hsub
    generalize recur' task' s' = o' at hsub
    cases hsub with
    | done ha ht => exact ih _ _ _ _ ha ht
    | failed e ht => exact .failed e ht
    | exhausted => exact .exhausted

/-- Related tasks end in the same way after the same work, or both need more. -/
theorem Kept.run {ctx ctx' : Context} (h : C.Kept ctx ctx') (work : Nat)
    (htask : C.tasks task task') (hs : C.states s s') :
    C.Outcomes (ctx.run work task s) (ctx'.run work task' s') := by
  induction work generalizing task task' s s' with
  | zero =>
    -- without work only accesses are carried out, and these stand beside each other
    have hplans := h task task' s s' htask hs
    have haccesses := C.accesses htask
    cases haccess : task.access?.isSome with
    | false =>
      rw [Context.run_zero_of_no_access haccess,
        Context.run_zero_of_no_access (haccesses.symm.trans haccess)]
      exact .exhausted
    | true =>
      rw [Context.plan_of_access haccess,
        Context.plan_of_access (haccesses.symm.trans haccess)] at hplans
      cases hplans with
      | finish h => exact h
  | succ work ih =>
    rw [Context.run_succ, Context.run_succ]
    exact (h task task' s s' htask hs).run fun _ _ _ _ htask hs => ih htask hs

end Coupling

end Lox
