import Lox.Proofs.Run.Plan

/-! What the steps of a run do that consist of no others: operators, reading and writing. -/

namespace Lox

theorem UnaryOp.apply_done {op : UnaryOp} {a b : Value} {l : Location} {s t : State}
    (h : op.apply a l s = .done b t) : t = s ∧ b.callable = false := by
  cases op with
  | not => cases h; exact ⟨rfl, rfl⟩
  | negate =>
    cases a with
    | number x => cases h; exact ⟨rfl, rfl⟩
    | _ => cases h

private theorem BinaryOp.onNumbers_ok {op : BinaryOp} {x y : Float} {b : Value}
    (h : op.onNumbers x y = .ok b) : b.callable = false := by
  cases op with
  | divide | remainder =>
    rw [BinaryOp.onNumbers] at h
    split at h
    · cases h
    · cases h; rfl
  | _ => cases h; rfl

theorem BinaryOp.onValues_ok {op : BinaryOp} {a a' b : Value} (h : op.onValues a a' = .ok b) :
    b.callable = false := by
  revert h
  fun_cases BinaryOp.onValues op a a' with
  | case1 | case2 | case3 => rintro ⟨⟩; rfl
  | case4 => exact BinaryOp.onNumbers_ok
  | case5 => rintro ⟨⟩

theorem BinaryOp.apply_done {op : BinaryOp} {a a' b : Value} {l : Location} {s t : State}
    (h : op.apply a a' l s = .done b t) : t = s ∧ b.callable = false := by
  unfold BinaryOp.apply at h
  cases hok : op.onValues a a' with
  | error fault => rw [hok] at h; cases h
  | ok b' =>
    rw [hok] at h
    cases h
    exact ⟨rfl, BinaryOp.onValues_ok hok⟩

namespace Store

theorem binds_of_holder? {s : Store} {x : Name} {env : Environment} {i : Nat}
    (h : s.holder? x env = some i) : s.binds i x := by
  induction env with
  | nil => cases h
  | cons j env ih =>
    rw [holder?] at h
    split at h
    · cases h
      assumption
    · exact ih h

private theorem binds_of_holderAt? {s : Store} {x : Name} {env : Environment} {d i : Nat}
    (h : s.holderAt? x env d = some i) : s.binds i x := by
  unfold holderAt? at h
  split at h
  · cases h
  · split at h
    · cases h
      assumption
    · cases h

end Store

theorem Context.binds_of_holder? {ctx : Context} {env : Environment} {n : Node} {x : Name}
    {s : Store} {i : Nat} (h : ctx.holder? env n x s = some i) : s.binds i x := by
  unfold Context.holder? at h
  split at h
  · exact Store.binds_of_holder? h
  · exact Store.binds_of_holder? h
  · exact Store.binds_of_holderAt? h

/-- The variable that a task reads or writes, and the environment in which it is looked up. -/
def Task.access? : Task → Option (Environment × Node × Name)
  | .read env n x => some (env, n, x)
  | .write env n x _ => some (env, n, x)
  | _ => none

namespace Context

variable {ctx : Context} {env : Environment} {n : Node} {x : Name} {s : State}

theorem read_of_holder? {i : Nat} (h : ctx.holder? env n x s.store = some i) :
    ∃ v, (s.store.frame i).lookup x = some v ∧ ctx.read env n x s = .done v s := by
  obtain ⟨v, hv⟩ := Option.isSome_iff_exists.mp (binds_of_holder? h)
  refine ⟨v, hv, ?_⟩
  simp [read, Eval.ask, bind, Eval.bind, h, hv, RuntimeError.orUndefined, Eval.ofExcept, Eval.pure]

theorem read_of_no_holder (h : ctx.holder? env n x s.store = none) :
    ctx.read env n x s = .failed ⟨.undefinedVariable x, some n.location⟩ s := by
  simp [read, Eval.ask, bind, Eval.bind, h, RuntimeError.orUndefined, Eval.ofExcept]

theorem write_of_holder? {i : Nat} (h : ctx.holder? env n x s.store = some i) (v : Value) :
    ctx.write env n x v s = .done () { s with store := s.store.setIn i x v } := by
  simp [write, Eval.ask, bind, Eval.bind, h, RuntimeError.orUndefined, Eval.ofExcept, Eval.pure,
    Eval.setIn]

theorem write_of_no_holder (h : ctx.holder? env n x s.store = none) (v : Value) :
    ctx.write env n x v s = .failed ⟨.undefinedVariable x, some n.location⟩ s := by
  simp [write, Eval.ask, bind, Eval.bind, h, RuntimeError.orUndefined, Eval.ofExcept]

end Context

end Lox
