import Lox.Proofs.Resolution.Stands
import Lox.Proofs.Run.Visit

/-! The runs of a program, the activations of its blocks and functions, and the worlds that describe
the store of a run: a world says for which block or function each frame was opened. -/

namespace Lox

/-- A run of a program that starts in the globals; the number bounds its work. -/
structure Course where
  ctx : Context
  program : Program Node
  work : Nat
  start : State

namespace Course

def root (r : Course) : Visit := ⟨r.work, .executeAll r.ctx.globals r.program, r.start⟩

/-- The run comes to this. -/
def Visits (r : Course) (v : Visit) : Prop := r.ctx.Reaches r.root v

/-- A task that runs inside activations of the given blocks and functions, innermost first, and the
environment that these have opened. A function has been declared inside the activations around its
declaration. -/
inductive Active (r : Course) : List (Stmt Node) → Environment → Visit → Prop where
  | top {v} : r.Visits v → Active r [] r.ctx.globals v
  | block {owners env u n body v} : Active r owners env u → u.task = .execute env (.block n body) →
      Relation.TransGen r.ctx.Calls u v → Active r (.block n body :: owners) (u.state.inner env) v
  | call {owners env u n x params body w args location v} : Active r owners env u →
      u.task = .execute env (.funDecl n x params body) → r.Visits w →
      w.task = .call (.function (u.state.closure x params body env)) args location →
      args.length = params.length → Relation.TransGen r.ctx.Calls w v →
      Active r (.funDecl n x params body :: owners) (w.state.inner env) v

/-- The functions that the store holds before the run. -/
def Guest (r : Course) (c : Closure) : Prop :=
  ∃ i x, (r.start.store.frame i).lookup x = some (.function c)

/-- The functions that the run calls. -/
def Called (r : Course) (c : Closure) : Prop :=
  ∃ v args location, r.Visits v ∧ v.task = .call (.function c) args location

theorem Active.visits {r : Course} {owners : List (Stmt Node)} {env : Environment} {v : Visit}
    (h : r.Active owners env v) : r.Visits v := by
  induction h with
  | top hv => exact hv
  | block _ _ hcalls ih => exact ih.trans hcalls.to_reflTransGen
  | call _ _ hw _ _ hcalls => exact hw.trans hcalls.to_reflTransGen

/-- What runs inside a task runs inside the activations around it. -/
theorem Active.trans {r : Course} {owners : List (Stmt Node)} {env : Environment} {v v' : Visit}
    (h : r.Active owners env v) (hreach : r.ctx.Reaches v v') : r.Active owners env v' := by
  cases h with
  | top hv => exact .top (hv.trans hreach)
  | block hu htask hcalls => exact .block hu htask (hcalls.trans_left hreach)
  | call hu htask hw hcall hlength hcalls =>
    exact .call hu htask hw hcall hlength (hcalls.trans_left hreach)

/-- Every activation has opened one frame on top of the globals. -/
theorem Active.length {r : Course} {owners : List (Stmt Node)} {env : Environment} {v : Visit}
    (h : r.Active owners env v) : env.length = owners.length + r.ctx.globals.length := by
  induction h with
  | top => simp
  | block _ _ _ ih => simp [State.inner, ih]; omega
  | call _ _ _ _ _ _ ih => simp [State.inner, ih]; omega

theorem Active.drop {r : Course} {owners : List (Stmt Node)} {env : Environment} {v : Visit}
    (h : r.Active owners env v) : env.drop owners.length = r.ctx.globals := by
  induction h with
  | top => rfl
  | block _ _ _ ih => exact ih
  | call _ _ _ _ _ _ ih => exact ih

end Course

/-- The owners of the frames, by their numbers. Frames from before the run have none. -/
structure World where
  owners : List (Option (Stmt Node))
  store : Store

namespace World

/-- Frames are only added, and variables stay. -/
instance : Preorder World where
  le w w' := w.owners <+: w'.owners ∧ ∀ i x, w.store.binds i x → w'.store.binds i x
  le_refl w := ⟨List.prefix_rfl, fun _ _ => id⟩
  le_trans w w' w'' h h' := ⟨h.1.trans h'.1, fun i x hx => h'.2 i x (h.2 i x hx)⟩

def openFrame (w : World) (owner : Option (Stmt Node)) (env : Environment) : World :=
  ⟨w.owners ++ [owner], (w.store.child env).2⟩

def set (w : World) (i : Nat) (x : Name) (v : Value) : World := ⟨w.owners, w.store.setIn i x v⟩

def define (w : World) (env : Environment) (x : Name) (v : Value) : World :=
  ⟨w.owners, w.store.define env x v⟩

def defineAll (w : World) (env : Environment) (xs : List Name) (vs : List Value) : World :=
  ⟨w.owners, w.store.defineAll env xs vs⟩

variable {w w' : World} {i j : Nat} {x y : Name} {v : Value} {o : Option (Stmt Node)}
  {env : Environment}

theorem owner_mono (h : w ≤ w') (ho : w.owners[i]? = some o) : w'.owners[i]? = some o := by
  obtain ⟨added, hadded⟩ := h.1
  have hi : i < w.owners.length := (List.getElem?_eq_some_iff.mp ho).1
  rw [← hadded, List.getElem?_append_left hi]
  exact ho

theorem binds_setIn (s : Store) (hi : i < s.frames.size) :
    (s.setIn i x v).binds j y ↔ (j = i ∧ y = x) ∨ s.binds j y := by
  unfold Store.binds
  rw [Store.frame_setIn s i j x v hi]
  by_cases hj : j = i
  · subst hj
    rw [if_pos rfl, Frame.lookup_set]
    by_cases hy : y = x
    · simp [hy]
    · simp [hy]
  · simp [hj]

/-- A frame that does not exist takes no variables. -/
theorem setIn_of_size_le (s : Store) (hi : s.frames.size ≤ i) : s.setIn i x v = s := by
  have hmodify : s.frames.modify i (Frame.set x v) = s.frames := by
    apply Array.ext_getElem?
    intro j
    rw [Array.getElem?_modify]
    split
    · rename_i hj
      subst hj
      rw [Array.getElem?_eq_none hi]
      rfl
    · rfl
  unfold Store.setIn
  rw [hmodify]

theorem binds_child (s : Store) : (s.child env).2.binds i x = s.binds i x := by
  simp [Store.binds]

theorem not_binds_of_size_le (s : Store) (hi : s.frames.size ≤ i) : ¬ s.binds i x := by
  unfold Store.binds Store.frame
  rw [Array.getD_eq_getD_getElem?, Array.getElem?_eq_none hi]
  exact Bool.false_ne_true

theorem le_openFrame : w ≤ w.openFrame o env := by
  refine ⟨List.prefix_append .., fun i x hx => ?_⟩
  unfold openFrame
  rwa [binds_child]

theorem le_set : w ≤ w.set i x v := by
  refine ⟨List.prefix_rfl, fun j y hy => ?_⟩
  unfold set
  by_cases hi : i < w.store.frames.size
  · rw [binds_setIn _ hi]
    exact .inr hy
  · rwa [setIn_of_size_le _ (Nat.le_of_not_lt hi)]

theorem le_define : w ≤ w.define env x v := by
  cases env with
  | nil => exact le_refl w
  | cons i env => exact le_set

end World

/-- The frames of an environment have been opened for the given blocks and functions; the one after
them has no owner. -/
def Labelled (labels : List (Option (Stmt Node))) : List (Stmt Node) → Environment → Prop
  | [], env => ∀ i, env.head? = some i → labels[i]? = some none
  | o :: owners, i :: env => labels[i]? = some (some o) ∧ Labelled labels owners env
  | _ :: _, [] => False

/-- The frames of an environment have the given variables. -/
def Bound (s : Store) : List (List Name) → Environment → Prop
  | [], _ => True
  | names :: outer, i :: env => (∀ x ∈ names, s.binds i x) ∧ Bound s outer env
  | _ :: _, [] => False

theorem Labelled.mono {w w' : World} {owners : List (Stmt Node)} {env : Environment} (hw : w ≤ w')
    (h : Labelled w.owners owners env) : Labelled w'.owners owners env := by
  induction owners generalizing env with
  | nil => exact fun i hi => World.owner_mono hw (h i hi)
  | cons o owners ih =>
    cases env with
    | nil => exact h
    | cons i env => exact ⟨World.owner_mono hw h.1, ih h.2⟩

theorem Bound.mono {w w' : World} {settled : List (List Name)} {env : Environment} (hw : w ≤ w')
    (h : Bound w.store settled env) : Bound w'.store settled env := by
  induction settled generalizing env with
  | nil => exact trivial
  | cons names outer ih =>
    cases env with
    | nil => exact h
    | cons i env => exact ⟨fun x hx => hw.2 i x (h.1 x hx), ih h.2⟩

/-- A declaration binds its name in the innermost frame. -/
theorem Bound.settle {s : Store} {settled : List (List Name)} {env : Environment}
    (h : Bound s settled env) {d : Option Name}
    (hd : settled ≠ [] → ∀ x i, d = some x → env.head? = some i → s.binds i x) :
    Bound s (Place.settle d settled) env := by
  cases d with
  | none => exact h
  | some x =>
    cases settled with
    | nil => exact h
    | cons names outer =>
      cases env with
      | nil => exact h
      | cons i env =>
        refine ⟨fun y hy => ?_, h.2⟩
        rcases List.mem_cons.mp hy with rfl | hy
        · exact hd (List.cons_ne_nil _ _) _ _ rfl rfl
        · exact h.1 y hy

end Lox
