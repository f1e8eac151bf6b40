import Mathlib.Logic.Relation
import Mathlib.Order.Defs.PartialOrder
import Lox.Proofs.Run.Plan

/-! The tasks that a run comes to, and how to reason about all of them. An invariant may depend on a
world, which only ever grows in the course of a run. -/

namespace Lox

/-- A task at the moment when it starts; the number bounds the work inside it. -/
structure Visit where
  work : Nat
  task : Task
  state : State

namespace Plan

/-- The plan comes to a task in a state. -/
inductive Asks (recur : Task → Eval Answer) : Plan → Task → State → Prop where
  | now {task s next} : Asks recur (.sub task s next) task s
  | later {task s next a t task' t'} : recur task s = .done a t →
      Asks recur (next a t) task' t' → Asks recur (.sub task s next) task' t'

end Plan

namespace Context

/-- A task comes to a task inside it. -/
inductive Calls (ctx : Context) : Visit → Visit → Prop where
  | intro {work task s task' s'} : (ctx.plan task s).Asks (ctx.run work) task' s' →
      Calls ctx ⟨work + 1, task, s⟩ ⟨work, task', s'⟩

/-- In the course of the first task the run comes to the second one. -/
abbrev Reaches (ctx : Context) : Visit → Visit → Prop := Relation.ReflTransGen ctx.Calls

def outcome (ctx : Context) (v : Visit) : Outcome Answer := ctx.run v.work v.task v.state

/-- What is said of worlds, states, tasks and answers in the course of one run. -/
structure Invariant (World : Type) where
  holds : World → State → Prop
  fits : World → Visit → Prop
  answers : World → Visit → Answer → Prop

end Context

section

variable {ctx ctx' : Context} {World : Type} [Preorder World] {I : Context.Invariant World}
  {root v v' : Visit} {work : Nat} {w : World} {plan : Plan}

/-- A plan that starts in a world keeps the invariant: its tasks fit if the run comes to them, and
if their answers fit, so does its own. -/
def Plan.Keeps (I : Context.Invariant World) (visited : Visit → Prop)
    (recur : Task → Eval Answer) (work : Nat) (post : World → Answer → Prop) :
    World → Plan → Prop
  | w, .finish (.done a s) => ∃ w', w ≤ w' ∧ I.holds w' s ∧ post w' a
  | _, .finish _ => True
  | w, .sub task s next => visited ⟨work, task, s⟩ →
    ∃ w', w ≤ w' ∧ I.holds w' s ∧ I.fits w' ⟨work, task, s⟩ ∧
      ∀ w'', w' ≤ w'' → ∀ a t, recur task s = .done a t → I.holds w'' t →
        I.answers w'' ⟨work, task, s⟩ a → Plan.Keeps I visited recur work post w'' (next a t)

/-- The answer of a task that ends fits in some later world. -/
def Context.Invariant.Answers (I : Context.Invariant World) (w : World) (v : Visit)
    (o : Outcome Answer) : Prop :=
  ∀ a t, o = .done a t → ∃ w', w ≤ w' ∧ I.holds w' t ∧ I.answers w' v a

/-- Every plan that a run comes to keeps the invariant. -/
def Context.Preserves (ctx : Context) (I : Context.Invariant World) (root : Visit) : Prop :=
  ∀ v w, ctx.Reaches root v → I.holds w v.state → I.fits w v →
    Plan.Keeps I (ctx.Calls v) (ctx.run (v.work - 1)) (v.work - 1) (fun w' => I.answers w' v) w
      (ctx.plan v.task v.state)

private theorem Plan.Keeps.answers {recur : Task → Eval Answer} {visited : Visit → Prop}
    {post : World → Answer → Prop}
    (hrecur : ∀ task s w, visited ⟨work, task, s⟩ → I.holds w s → I.fits w ⟨work, task, s⟩ →
      I.Answers w ⟨work, task, s⟩ (recur task s))
    (hvisited : ∀ task s, plan.Asks recur task s → visited ⟨work, task, s⟩)
    (h : Plan.Keeps I visited recur work post w plan) {a : Answer} {t : State}
    (ho : plan.run recur = .done a t) : ∃ w', w ≤ w' ∧ I.holds w' t ∧ post w' a := by
  induction plan generalizing w with
  | finish o =>
    cases ho
    exact h
  | sub task s next ih =>
    have hv : visited ⟨work, task, s⟩ := hvisited _ _ .now
    obtain ⟨w₁, hw₁, hs, hfits, hnext⟩ := h hv
    rw [Plan.run] at ho
    cases hr : recur task s with
    | failed e t => rw [hr] at ho; cases ho
    | exhausted => rw [hr] at ho; cases ho
    | done b u =>
      rw [hr] at ho
      obtain ⟨w₂, hw₂, hu, hb⟩ := hrecur _ _ _ hv hs hfits b u hr
      have hlater : ∀ task s, (next b u).Asks recur task s → visited ⟨work, task, s⟩ :=
        fun task s hasks => hvisited _ _ (.later hr hasks)
      obtain ⟨w₃, hw₃, ht, ha⟩ := ih b u hlater (hnext w₂ hw₂ b u hr hu hb) ho
      exact ⟨w₃, le_trans hw₁ (le_trans hw₂ hw₃), ht, ha⟩

private theorem Plan.Keeps.asked {recur : Task → Eval Answer} {visited : Visit → Prop}
    {post : World → Answer → Prop} {task : Task} {s : State}
    (hrecur : ∀ task s w, visited ⟨work, task, s⟩ → I.holds w s → I.fits w ⟨work, task, s⟩ →
      I.Answers w ⟨work, task, s⟩ (recur task s))
    (hvisited : ∀ task s, plan.Asks recur task s → visited ⟨work, task, s⟩)
    (hasks : plan.Asks recur task s) (h : Plan.Keeps I visited recur work post w plan) :
    ∃ w', w ≤ w' ∧ I.holds w' s ∧ I.fits w' ⟨work, task, s⟩ := by
  induction hasks generalizing w with
  | now =>
    obtain ⟨w', hw, hs, hfits, -⟩ := h (hvisited _ _ .now)
    exact ⟨w', hw, hs, hfits⟩
  | later hr _ ih =>
    have hv := hvisited _ _ .now
    obtain ⟨w₁, hw₁, hs, hfits, hnext⟩ := h hv
    obtain ⟨w₂, hw₂, hu, hb⟩ := hrecur _ _ _ hv hs hfits _ _ hr
    obtain ⟨w₃, hw₃, ht, hfits'⟩ :=
      ih (fun task s hasks => hvisited _ _ (.later hr hasks)) (hnext w₂ hw₂ _ _ hr hu hb)
    exact ⟨w₃, le_trans hw₁ (le_trans hw₂ hw₃), ht, hfits'⟩

namespace Context

theorem Preserves.answers (hpres : ctx.Preserves I root) (task : Task) (s : State) (w : World)
    (hreach : ctx.Reaches root ⟨work, task, s⟩) (hs : I.holds w s)
    (hfits : I.fits w ⟨work, task, s⟩) : I.Answers w ⟨work, task, s⟩ (ctx.run work task s) := by
  induction work generalizing task s w with
  | zero =>
    intro a t ho
    have hkeeps := hpres _ w hreach hs hfits
    rcases run_zero task s with hnone | hplan
    · rw [hnone] at ho
      cases ho
    · rw [hplan, ho] at hkeeps
      exact hkeeps
  | succ work ih =>
    intro a t ho
    rw [run_succ] at ho
    refine (hpres _ w hreach hs hfits).answers ?_ (fun task s hasks => .intro hasks) ho
    exact fun task s w hcall => ih task s w (hreach.tail hcall)

theorem Preserves.reaches (hpres : ctx.Preserves I root) (hs : I.holds w root.state)
    (hfits : I.fits w root) (hreach : ctx.Reaches root v) :
    ∃ w', w ≤ w' ∧ I.holds w' v.state ∧ I.fits w' v := by
  induction hreach with
  | refl => exact ⟨w, le_refl w, hs, hfits⟩
  | tail hreach hcall ih =>
    obtain ⟨w₁, hw₁, hs₁, hfits₁⟩ := ih
    obtain ⟨hasks⟩ := hcall
    obtain ⟨w₂, hw₂, hs₂, hfits₂⟩ := (hpres _ w₁ hreach hs₁ hfits₁).asked
      (fun task s w hcall => hpres.answers task s w (hreach.tail hcall))
      (fun task s hasks => .intro hasks) hasks
    exact ⟨w₂, le_trans hw₁ hw₂, hs₂, hfits₂⟩

end Context

end

section

variable {ctx ctx' : Context} {root v : Visit} {work : Nat} {plan : Plan}
  {recur recur' : Task → Eval Answer}

theorem Plan.run_congr (h : ∀ task s, plan.Asks recur task s → recur task s = recur' task s) :
    plan.run recur = plan.run recur' := by
  induction plan with
  | finish o => rfl
  | sub task s next ih =>
    rw [Plan.run, Plan.run, ← h task s .now]
    cases hr : recur task s with
    | failed e t => rfl
    | exhausted => rfl
    | done a t => exact ih a t fun task s hasks => h task s (.later hr hasks)

/-- Two runs agree if they agree on the plan of every task that the first one comes to. -/
theorem Context.run_congr
    (h : ∀ v, ctx.Reaches root v → ctx.plan v.task v.state = ctx'.plan v.task v.state)
    (task : Task) (s : State) (hreach : ctx.Reaches root ⟨work, task, s⟩) :
    ctx.run work task s = ctx'.run work task s := by
  induction work generalizing task s with
  | zero =>
    have hplan := h _ hreach
    cases task with
    | read | write =>
      injection hplan
    | _ => rfl
  | succ work ih =>
    rw [run_succ, run_succ, ← h _ hreach]
    exact Plan.run_congr fun task s hasks => ih task s (hreach.tail (.intro hasks))

end

end Lox
