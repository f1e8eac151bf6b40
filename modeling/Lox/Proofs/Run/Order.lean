import Lox.Proofs.Run.Grow

/-! The order of the tasks of a run. A task that has ended before another one starts leaves its
variables to it. -/

namespace Lox

namespace Store.Within

variable {s t u : Store}

theorem refl (s : Store) : s.Within s := fun _ _ => id

theorem trans (h : s.Within t) (h' : t.Within u) : s.Within u := fun i x hx => h' i x (h i x hx)

end Store.Within

namespace Plan

variable {recur : Task → Eval Answer} {plan : Plan} {before : Store}
  {task task' : Task} {s s' t : State} {a : Answer}

/-- The plan comes to both tasks, and to the second one when the first has ended. -/
inductive AsksBoth (recur : Task → Eval Answer) : Plan → Task → State → Task → State → Prop where
  | now {task s next a t task' s'} : recur task s = .done a t →
      Asks recur (next a t) task' s' → AsksBoth recur (.sub task s next) task s task' s'
  | later {task s next a t task₁ s₁ task₂ s₂} : recur task s = .done a t →
      AsksBoth recur (next a t) task₁ s₁ task₂ s₂ →
      AsksBoth recur (.sub task s next) task₁ s₁ task₂ s₂

private theorem AsksBoth.first (h : plan.AsksBoth recur task s task' s') :
    plan.Asks recur task s := by
  induction h with
  | now => exact .now
  | later hr _ ih => exact .later hr ih

section

variable {host : Host} {outer : Task}
  (hrecur : ∀ task s t, (recur task s).state? = some t → s.store.Grows task.declares t.store)

include hrecur

/-- What a plan comes to starts with what has been added so far, and may itself add no more. -/
theorem Outlined.grows_asks (h : plan.Outlined host outer before)
    (hasks : plan.Asks recur task s) : before.Grows outer.declares s.store ∧
      ∀ i x, i < before.frames.size → task.declares i x → outer.declares i x := by
  induction hasks generalizing before with
  | now => exact ⟨h.1.grows, h.2.1.declares⟩
  | later hr _ ih =>
    obtain ⟨hchanges, hcontains, hnext⟩ := h
    have ht : before.Grows outer.declares _ :=
      hchanges.grows.step (hrecur _ _ _ (congrArg Outcome.state? hr)) hcontains.declares
    obtain ⟨hgrows, hadded⟩ := ih (hnext _ _)
    refine ⟨ht.trans hgrows, fun i x hi hx => ?_⟩
    exact hadded i x (Nat.lt_of_lt_of_le hi ht.size) hx

/-- What a plan comes to ends if the plan does, and no later. -/
theorem Outlined.ended (h : plan.Outlined host outer before) (hasks : plan.Asks recur task s)
    (ho : plan.run recur = .done a t) :
    ∃ b u, recur task s = .done b u ∧ u.store.Within t.store := by
  induction hasks generalizing before with
  | @now task s next =>
    rw [run] at ho
    cases hr : recur task s with
    | failed e u => rw [hr] at ho; cases ho
    | exhausted => rw [hr] at ho; cases ho
    | done b u =>
      rw [hr] at ho
      have hrest := (h.2.2 b u).ends (Store.grows_composed host) hrecur (congrArg Outcome.state? ho)
      exact ⟨b, u, rfl, hrest.within⟩
  | later hr _ ih =>
    rw [run, hr] at ho
    exact ih (h.2.2 _ _) ho

private theorem Outlined.both (h : plan.Outlined host outer before)
    (hasks : plan.AsksBoth recur task s task' s') :
    ∃ b u, recur task s = .done b u ∧ u.store.Within s'.store := by
  induction hasks generalizing before with
  | now hr hasks => exact ⟨_, _, hr, ((h.2.2 _ _).grows_asks hrecur hasks).1.within⟩
  | later hr _ ih => exact ih (h.2.2 _ _)

end

end Plan

namespace Context

variable {ctx : Context} {t : State} {a : Answer} {u v : Visit}

/-- A task adds to the frames that it finds only what it declares, also while it is under way. -/
theorem Reaches.grows (h : ctx.Reaches u v) :
    u.state.store.Grows u.task.declares v.state.store ∧
      ∀ i x, i < u.state.store.frames.size → v.task.declares i x → u.task.declares i x := by
  induction h with
  | refl => exact ⟨.refl _, fun _ _ _ => id⟩
  | tail _ hcall ih =>
    obtain ⟨hgrows, hdeclares⟩ := ih
    obtain ⟨hasks⟩ := hcall
    obtain ⟨hgrows', hdeclares'⟩ :=
      (ctx.outlined_plan _ _).grows_asks (fun _ _ _ => run_grows) hasks
    refine ⟨hgrows.step hgrows' hdeclares, fun i x hi hx => ?_⟩
    exact hdeclares i x hi (hdeclares' i x (Nat.lt_of_lt_of_le hi hgrows.size) hx)

private theorem Reaches.within (h : ctx.Reaches u v) : u.state.store.Within v.state.store :=
  h.grows.1.within

private theorem Reaches.ended (h : ctx.Reaches u v) (ho : ctx.outcome u = .done a t) :
    ∃ b t', ctx.outcome v = .done b t' ∧ t'.store.Within t.store := by
  induction h with
  | refl => exact ⟨a, t, ho, .refl _⟩
  | tail _ hcall ih =>
    obtain ⟨b, t₁, ho₁, hwithin₁⟩ := ih
    obtain ⟨hasks⟩ := hcall
    unfold outcome at ho₁
    rw [run_succ] at ho₁
    obtain ⟨c, t₂, ho₂, hwithin₂⟩ :=
      (ctx.outlined_plan _ _).ended (fun _ _ _ => run_grows) hasks ho₁
    exact ⟨c, t₂, ho₂, hwithin₂.trans hwithin₁⟩

end Context

/-- The first task has ended in the run when the second one starts. -/
inductive Course.Before (r : Course) : Visit → Visit → Prop where
  | intro {work task s task₁ s₁ task₂ s₂ u v} : r.Visits ⟨work + 1, task, s⟩ →
      (r.ctx.plan task s).AsksBoth (r.ctx.run work) task₁ s₁ task₂ s₂ →
      r.ctx.Reaches ⟨work, task₁, s₁⟩ u → r.ctx.Reaches ⟨work, task₂, s₂⟩ v → Before r u v

theorem Course.Before.visits {r : Course} {u v : Visit} (h : r.Before u v) : r.Visits u := by
  cases h with
  | intro hvisit hboth hu _ => exact (hvisit.tail (.intro hboth.first)).trans hu

/-- What a task leaves is there when a later one starts. -/
theorem Course.Before.within {r : Course} {u v : Visit} (h : r.Before u v) :
    ∃ a t, r.ctx.outcome u = .done a t ∧ t.store.Within v.state.store := by
  cases h with
  | intro _ hboth hu hv =>
    obtain ⟨a, t, ho, hwithin⟩ :=
      (r.ctx.outlined_plan _ _).both (fun _ _ _ => Context.run_grows) hboth
    obtain ⟨b, t', ho', hwithin'⟩ := hu.ended ho
    exact ⟨b, t', ho', hwithin'.trans (hwithin.trans hv.within)⟩

end Lox
