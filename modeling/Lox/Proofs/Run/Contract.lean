import Lox.Proofs.Run.Outline

/-! What every task of a run keeps, whichever way it ends. A contract says what holds of the state
between any two steps, of the tasks that the run comes to, and of the values that they answer; if
the plan of each task meets it, so does the run. -/

namespace Lox

structure Contract where
  holds : State → Prop
  fits : Task → Prop
  value : Value → Prop

namespace Contract

variable (C : Contract)

def answer : Answer → Prop
  | .value v | .completion (.returned v) => C.value v
  | .values vs => ∀ v ∈ vs, C.value v
  | .completion .normal | .written => True

def outcome : Outcome Answer → Prop
  | .done a t => C.holds t ∧ C.answer a
  | .failed _ t => C.holds t
  | .exhausted => True

/-- The plan keeps the contract as long as its tasks do. -/
def plan : Plan → Prop
  | .finish o => C.outcome o
  | .sub task s next => C.holds s ∧ C.fits task ∧
    ∀ a t, C.holds t → C.answer a → plan (next a t)

/-- The plan of every task of the context keeps the contract. -/
def Kept (ctx : Context) : Prop :=
  ∀ task s, C.holds s → C.fits task → C.plan (ctx.plan task s)

section

variable {C} {task : Task} {s : State}

theorem plan_last (hs : C.holds s) (hfits : C.fits task) : C.plan (.last task s) :=
  ⟨hs, hfits, fun _ _ ht ha => ⟨ht, ha⟩⟩

theorem plan_value {next : Value → State → Plan} (hs : C.holds s) (hfits : C.fits task)
    (hnext : ∀ v t, C.holds t → C.value v → C.plan (next v t)) :
    C.plan (.value task s next) := by
  refine ⟨hs, hfits, fun a t ht ha => ?_⟩
  cases a with
  | value v => exact hnext v t ht ha
  | _ => exact trivial

theorem plan_values {next : List Value → State → Plan} (hs : C.holds s) (hfits : C.fits task)
    (hnext : ∀ vs t, C.holds t → (∀ v ∈ vs, C.value v) → C.plan (next vs t)) :
    C.plan (.values task s next) := by
  refine ⟨hs, hfits, fun a t ht ha => ?_⟩
  cases a with
  | values vs => exact hnext vs t ht ha
  | _ => exact trivial

theorem plan_completion {next : Completion → State → Plan} (hs : C.holds s) (hfits : C.fits task)
    (hnext : ∀ c t, C.holds t → C.answer (.completion c) → C.plan (next c t)) :
    C.plan (.completion task s next) := by
  refine ⟨hs, hfits, fun a t ht ha => ?_⟩
  cases a with
  | completion c => exact hnext c t ht ha
  | _ => exact trivial

theorem holds_of_outcome {o : Outcome Answer} {t : State} (h : C.outcome o)
    (ht : o.state? = some t) : C.holds t := by
  cases o with
  | done a u =>
    cases ht
    exact h.1
  | failed e u =>
    cases ht
    exact h
  | exhausted => cases ht

variable {ctx : Context} {work : Nat}

/-- With what is asked of it kept, the plan ends as the contract says. -/
theorem outcome_run {recur : Task → Eval Answer} {plan : Plan}
    (hrecur : ∀ task s, C.holds s → C.fits task → C.outcome (recur task s))
    (hplan : C.plan plan) : C.outcome (plan.run recur) := by
  induction plan with
  | finish o => exact hplan
  | sub task s next ih =>
    obtain ⟨hs, hfits, hnext⟩ := hplan
    have hsub := hrecur task s hs hfits
    rw [Plan.run]
    cases hr : recur task s with
    | done a t =>
      rw [hr] at hsub
      exact ih a t (hnext a t hsub.1 hsub.2)
    | failed e t =>
      rw [hr] at hsub
      exact hsub
    | exhausted => exact trivial

/-- A run keeps a contract that the plan of every task keeps. -/
theorem Kept.run (h : C.Kept ctx) (hs : C.holds s) (hfits : C.fits task) :
    C.outcome (ctx.run work task s) := by
  induction work generalizing task s with
  | zero =>
    have hplan := h task s hs hfits
    rcases Context.run_zero task s with hnone | hfinish
    · rw [hnone]
      exact trivial
    · rw [hfinish] at hplan
      exact hplan
  | succ work ih =>
    rw [Context.run_succ]
    exact outcome_run (fun _ _ => ih) (h task s hs hfits)

end

end Contract

end Lox
