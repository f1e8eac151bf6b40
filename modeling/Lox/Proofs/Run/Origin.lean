import Lox.Proofs.Run.Outline

/-! Where the error of an undefined variable comes from: a run that ends with one has come to an
access that finds no frame with its name. -/

namespace Lox

namespace Outcome

variable {α : Type}

/-- What has gone wrong, if something has. -/
def fault? : Outcome α → Option Fault
  | .failed e _ => some e.fault
  | _ => none

theorem fault?_eq_some {o : Outcome α} {fault : Fault} :
    o.fault? = some fault ↔ ∃ l s, o = .failed ⟨fault, l⟩ s := by
  constructor
  · intro h
    cases o with
    | failed e s =>
      cases h
      exact ⟨e.location, s, rfl⟩
    | _ => cases h
  · rintro ⟨l, s, rfl⟩
    rfl

end Outcome

/-- Only an access raises the error of an undefined variable. -/
theorem Task.Raises.exists_access {task : Task} {x : Name} {l : Option Location}
    (h : task.Raises ⟨.undefinedVariable x, l⟩) : ∃ env n, task.access? = some (env, n, x) := by
  generalize herror : RuntimeError.mk (.undefinedVariable x) l = e at h
  cases h with
  | access haccess =>
    cases herror
    exact ⟨_, _, haccess⟩
  | unary hfault | binary hfault =>
    cases herror
    cases hfault
  | _ => cases herror

namespace Context

variable {ctx : Context} {env : Environment} {s : State}

/-- An access fails where no frame has its name, and only there. -/
theorem failed_of_access {task : Task} {n : Node} {x : Name}
    (h : task.access? = some (env, n, x)) {work : Nat} {e : RuntimeError} {t : State}
    (ho : ctx.run work task s = .failed e t) : ctx.holder? env n x s.store = none ∧
      e = ⟨.undefinedVariable x, some n.location⟩ ∧ t = s := by
  cases task with
  | read env' n' x' =>
    cases h
    rw [run] at ho
    cases hi : ctx.holder? env n x s.store with
    | none =>
      rw [read_of_no_holder hi] at ho
      cases ho
      exact ⟨rfl, rfl, rfl⟩
    | some i =>
      obtain ⟨a, -, ha⟩ := read_of_holder? hi
      rw [ha] at ho
      cases ho
  | write env' n' x' a =>
    cases h
    rw [run] at ho
    cases hi : ctx.holder? env n x s.store with
    | none =>
      rw [write_of_no_holder hi] at ho
      cases ho
      exact ⟨rfl, rfl, rfl⟩
    | some i =>
      rw [write_of_holder? hi] at ho
      cases ho
  | _ => cases h

/-- A task that ends with an undefined variable comes to the access that does not find it. -/
theorem exists_access_of_failed {work : Nat} {task : Task} {x : Name} {l : Option Location}
    {t : State} (ho : ctx.run work task s = .failed ⟨.undefinedVariable x, l⟩ t) :
    ∃ v env n, ctx.Reaches ⟨work, task, s⟩ v ∧ v.task.access? = some (env, n, x) ∧
      ctx.holder? env n x v.state.store = none ∧ l = some n.location ∧ t = v.state := by
  obtain ⟨v, hreach, hraises, hv⟩ := exists_raises_of_failed ho
  obtain ⟨env, n, haccess⟩ := hraises.exists_access
  obtain ⟨hholder, herror, ht⟩ := failed_of_access haccess hv
  exact ⟨v, env, n, hreach, haccess, hholder, congrArg RuntimeError.location herror, ht⟩

end Context

end Lox
