import Mathlib.Data.List.Nodup
import Lox.Proofs.Run.Alike

/-! Two runs of the same code whose frames have different numbers, because the second one opens
further frames between those of the first. The further frames stay empty, so that every name is
found in the frame that corresponds, and what the two stores hold is the same up to the numbers. -/

namespace Lox

/-- The host looks neither into the bodies of functions nor into their environments. -/
def Host.Blind (host : Host) : Prop :=
  ∀ R : Closure → Closure → Prop, (∀ c c', R c c' → c.Resembles c') → ∀ calls f args args',
    List.Forall₂ (Value.Rel R) args args' → Reply.Rel R (host calls f args) (host calls f args')

theorem Host.blind_standard (clock : Clock) : (Host.standard clock).Blind := by
  intro R _ calls f args args' _
  by_cases hf : f = Native.clock
  · rw [Host.standard, Host.standard, if_pos hf]
    exact .value (.of_not_callable rfl)
  · rw [Host.standard, Host.standard, if_neg hf]
    exact .value (.of_not_callable rfl)

/-- The numbers of the frames of a run in a second one, and the frames that only the second run
has. -/
structure Renumbering where
  frames : List Nat
  extras : List Nat

/-- Frames are only added. -/
instance : Preorder Renumbering where
  le w w' := w.frames <+: w'.frames ∧ w.extras <+: w'.extras
  le_refl _ := ⟨List.prefix_rfl, List.prefix_rfl⟩
  le_trans _ _ _ h h' := ⟨h.1.trans h'.1, h.2.trans h'.2⟩

namespace Renumbering

/-- So many frames have the same numbers in both runs. -/
def same (n : Nat) : Renumbering := ⟨List.range n, []⟩

/-- Both runs open a frame, which gets the number in the second one. -/
def openFrame (w : Renumbering) (j : Nat) : Renumbering := ⟨w.frames ++ [j], w.extras⟩

/-- Only the second run opens a frame. -/
def openExtra (w : Renumbering) (j : Nat) : Renumbering := ⟨w.frames, w.extras ++ [j]⟩

/-- The environments have corresponding frames, but for those that only the second run has. -/
inductive EnvAlike (w : Renumbering) : Environment → Environment → Prop where
  | nil : EnvAlike w [] []
  | frame {i j env env'} : w.frames[i]? = some j → EnvAlike w env env' →
      EnvAlike w (i :: env) (j :: env')
  | extra {j env env'} : j ∈ w.extras → EnvAlike w env env' → EnvAlike w env (j :: env')

/-- What is declared in the one environment is declared in the other one. -/
inductive Fronted (w : Renumbering) : Environment → Environment → Prop where
  | nil : Fronted w [] []
  | frame {i j env env'} : w.frames[i]? = some j → w.EnvAlike env env' →
      Fronted w (i :: env) (j :: env')

structure ClosureAlike (w : Renumbering) (c c' : Closure) : Prop extends c.Resembles c' where
  body : c.body = c'.body
  env : w.EnvAlike c.env c'.env

abbrev ValueAlike (w : Renumbering) : Value → Value → Prop := Value.Rel w.ClosureAlike

/-- The states of the two runs. -/
structure StateAlike (w : Renumbering) (s s' : State) : Prop where
  size : s.store.frames.size = w.frames.length
  frame_lt : ∀ j ∈ w.frames, j < s'.store.frames.size
  extra_lt : ∀ j ∈ w.extras, j < s'.store.frames.size
  nodup : w.frames.Nodup
  disjoint : ∀ j ∈ w.extras, j ∉ w.frames
  frames : ∀ i j, w.frames[i]? = some j →
    (s.store.frame i).Rel w.ValueAlike (s'.store.frame j)
  extras : ∀ j ∈ w.extras, s'.store.frame j = []
  output : s.output = s'.output
  nextFunction : s.nextFunction = s'.nextFunction
  calls : s.calls = s'.calls

variable {w w' : Renumbering} {s s' : State} {env env' : Environment} {v v' : Value}
  {c c' : Closure} {i j : Nat} {x : Name}

theorem le_openFrame (w : Renumbering) (j : Nat) : w ≤ w.openFrame j :=
  ⟨List.prefix_append .., List.prefix_rfl⟩

theorem le_openExtra (w : Renumbering) (j : Nat) : w ≤ w.openExtra j :=
  ⟨List.prefix_rfl, List.prefix_append ..⟩

theorem getElem?_mono (hw : w ≤ w') (h : w.frames[i]? = some j) : w'.frames[i]? = some j := by
  obtain ⟨added, hadded⟩ := hw.1
  have hi : i < w.frames.length := (List.getElem?_eq_some_iff.mp h).1
  rw [← hadded, List.getElem?_append_left hi]
  exact h

theorem EnvAlike.mono (h : w.EnvAlike env env') (hw : w ≤ w') : w'.EnvAlike env env' := by
  induction h with
  | nil => exact .nil
  | frame hi _ ih => exact .frame (getElem?_mono hw hi) ih
  | extra hj _ ih => exact .extra (hw.2.subset hj) ih

theorem Fronted.mono (h : w.Fronted env env') (hw : w ≤ w') : w'.Fronted env env' := by
  cases h with
  | nil => exact .nil
  | frame hi henv => exact .frame (getElem?_mono hw hi) (henv.mono hw)

theorem Fronted.envAlike (h : w.Fronted env env') : w.EnvAlike env env' := by
  cases h with
  | nil => exact .nil
  | frame hi henv => exact .frame hi henv

/-- The environments inside a frame that both runs open. -/
theorem EnvAlike.openFrame (h : w.EnvAlike env env') (j : Nat) :
    (w.openFrame j).Fronted (w.frames.length :: env) (j :: env') :=
  .frame List.getElem?_concat_length (h.mono (w.le_openFrame j))

theorem EnvAlike.openExtra (h : w.EnvAlike env env') (j : Nat) :
    (w.openExtra j).EnvAlike env (j :: env') :=
  .extra (List.mem_append_right _ (List.mem_singleton_self j)) (h.mono (w.le_openExtra j))

theorem envAlike_same {n : Nat} (h : ∀ i ∈ env, i < n) : (same n).EnvAlike env env := by
  induction env with
  | nil => exact .nil
  | cons i env ih =>
    obtain ⟨hi, henv⟩ := List.forall_mem_cons.mp h
    exact .frame (List.getElem?_range hi) (ih henv)

theorem ClosureAlike.mono (h : w.ClosureAlike c c') (hw : w ≤ w') : w'.ClosureAlike c c' :=
  { h with env := h.env.mono hw }

theorem ClosureAlike.resembles_of (c c' : Closure) (h : w.ClosureAlike c c') : c.Resembles c' :=
  h.toResembles

theorem ValueAlike.mono (h : w.ValueAlike v v') (hw : w ≤ w') : w'.ValueAlike v v' :=
  Value.Rel.mono h fun _ _ hc => hc.mono hw

private theorem valuesAlike_mono {vs vs' : List Value} (h : List.Forall₂ w.ValueAlike vs vs')
    (hw : w ≤ w') : List.Forall₂ w'.ValueAlike vs vs' :=
  List.Forall₂.imp (fun _ _ hv => ValueAlike.mono hv hw) h

end Renumbering

theorem Store.frame_of_size_le {s : Store} {i : Nat} (h : s.frames.size ≤ i) : s.frame i = [] := by
  unfold Store.frame
  rw [Array.getD_eq_getD_getElem?, Array.getElem?_eq_none h]
  rfl

namespace Renumbering.StateAlike

variable {w w' : Renumbering} {s s' : State} {env env' : Environment} {v v' : Value}
  {c c' : Closure} {i j : Nat} {x : Name}

theorem setIn (h : w.StateAlike s s') (hij : w.frames[i]? = some j) (hv : w.ValueAlike v v')
    (x : Name) : w.StateAlike { s with store := s.store.setIn i x v }
      { s' with store := s'.store.setIn j x v' } := by
  have hi : i < w.frames.length := (List.getElem?_eq_some_iff.mp hij).1
  have hmem : j ∈ w.frames := List.mem_of_getElem? hij
  have hj : j < s'.store.frames.size := h.frame_lt j hmem
  refine { h with
    size := ?_, frame_lt := ?_, extra_lt := ?_, frames := fun i' j' hij' => ?_,
    extras := fun j' hj' => ?_ }
  · rw [Store.size_setIn, h.size]
  · rw [Store.size_setIn]
    exact h.frame_lt
  · rw [Store.size_setIn]
    exact h.extra_lt
  · rw [Store.frame_setIn _ _ _ _ _ (by rwa [h.size]), Store.frame_setIn _ _ _ _ _ hj]
    by_cases hi' : i' = i
    · rw [hi'] at hij' ⊢
      cases hij.symm.trans hij'
      rw [if_pos rfl, if_pos rfl]
      exact (h.frames i j hij).set hv x
    · have hj' : j' ≠ j := by
        rintro rfl
        exact hi' ((List.getElem?_inj hi h.nodup).mp (hij.trans hij'.symm)).symm
      rw [if_neg hi', if_neg hj']
      exact h.frames i' j' hij'
  · have hne : j' ≠ j := by
      rintro rfl
      exact h.disjoint j' hj' hmem
    rw [Store.frame_setIn _ _ _ _ _ hj, if_neg hne]
    exact h.extras j' hj'

theorem define (h : w.StateAlike s s') (henv : w.Fronted env env') (hv : w.ValueAlike v v')
    (x : Name) : w.StateAlike (s.define env x v) (s'.define env' x v') := by
  cases henv with
  | nil => exact h
  | frame hij _ => exact h.setIn hij hv x

private theorem defineAll {args args' : List Value} (h : w.StateAlike s s')
    (henv : w.Fronted env env') (hargs : List.Forall₂ w.ValueAlike args args') (xs : List Name) :
    w.StateAlike { s with store := s.store.defineAll env xs args }
      { s' with store := s'.store.defineAll env' xs args' } := by
  induction xs generalizing s s' args args' with
  | nil => exact h
  | cons x xs ih =>
    cases hargs with
    | nil => exact h
    | cons hv hrest => exact ih (h.define henv hv x) hrest

/-- Both runs open a frame. -/
theorem openFrame (h : w.StateAlike s s') (env env' : Environment) :
    (w.openFrame s'.store.frames.size).StateAlike (s.openFrame env) (s'.openFrame env') := by
  have hle := w.le_openFrame s'.store.frames.size
  have hsize : (s'.openFrame env').store.frames.size = s'.store.frames.size + 1 :=
    Store.size_child _ env'
  refine { h with
    size := ?_, frame_lt := fun j hj => ?_, extra_lt := fun j hj => ?_, nodup := ?_,
    disjoint := fun j hj => ?_, frames := fun i j hij => ?_, extras := fun j hj => ?_ }
  · rw [State.openFrame, Store.size_child, h.size, Renumbering.openFrame, List.length_append]
    rfl
  · rw [hsize]
    rcases List.mem_append.mp hj with hj | hj
    · exact Nat.lt_succ_of_lt (h.frame_lt j hj)
    · rw [List.mem_singleton.mp hj]
      exact Nat.lt_succ_self _
  · rw [hsize]
    exact Nat.lt_succ_of_lt (h.extra_lt j hj)
  · refine List.nodup_append.mpr ⟨h.nodup, List.nodup_singleton _, fun j hj j' hj' => ?_⟩
    rw [List.mem_singleton.mp hj']
    exact Nat.ne_of_lt (h.frame_lt j hj)
  · simp only [Renumbering.openFrame, List.mem_append, List.mem_singleton, not_or]
    exact ⟨h.disjoint j hj, Nat.ne_of_lt (h.extra_lt j hj)⟩
  · simp only [State.openFrame, Store.frame_child]
    by_cases hi : i < w.frames.length
    · unfold Renumbering.openFrame at hij
      rw [List.getElem?_append_left hi] at hij
      exact (h.frames i j hij).mono fun _ _ hv => ValueAlike.mono hv hle
    · -- the frame that both runs open is empty
      have hj : j = s'.store.frames.size := by
        unfold Renumbering.openFrame at hij
        rw [List.getElem?_append_right (Nat.le_of_not_lt hi)] at hij
        exact List.mem_singleton.mp (List.mem_of_getElem? hij)
      rw [Store.frame_of_size_le (by rw [h.size]; exact Nat.le_of_not_lt hi),
        Store.frame_of_size_le (Nat.le_of_eq hj.symm)]
      exact .nil
  · simp only [State.openFrame, Store.frame_child]
    exact h.extras j hj

/-- Only the second run opens a frame. -/
theorem openExtra (h : w.StateAlike s s') (env' : Environment) :
    (w.openExtra s'.store.frames.size).StateAlike s (s'.openFrame env') := by
  have hle := w.le_openExtra s'.store.frames.size
  have hsize : (s'.openFrame env').store.frames.size = s'.store.frames.size + 1 :=
    Store.size_child _ env'
  have hextras (j : Nat) (hj : j ∈ (w.openExtra s'.store.frames.size).extras) :
      j ∈ w.extras ∨ j = s'.store.frames.size :=
    (List.mem_append.mp hj).imp_right List.mem_singleton.mp
  refine { h with
    frame_lt := fun j hj => ?_, extra_lt := fun j hj => ?_, disjoint := fun j hj => ?_,
    frames := fun i j hij => ?_, extras := fun j hj => ?_ }
  · rw [hsize]
    exact Nat.lt_succ_of_lt (h.frame_lt j hj)
  · rw [hsize]
    rcases hextras j hj with hj | rfl
    · exact Nat.lt_succ_of_lt (h.extra_lt j hj)
    · exact Nat.lt_succ_self _
  · rcases hextras j hj with hj | rfl
    · exact h.disjoint j hj
    · exact fun hmem => Nat.lt_irrefl _ (h.frame_lt _ hmem)
  · simp only [State.openFrame, Store.frame_child]
    exact (h.frames i j hij).mono fun _ _ hv => ValueAlike.mono hv hle
  · simp only [State.openFrame, Store.frame_child]
    rcases hextras j hj with hj | rfl
    · exact h.extras j hj
    · exact Store.frame_of_size_le (Nat.le_refl _)

theorem inner (h : w.StateAlike s s') (henv : w.EnvAlike env env') :
    (w.openFrame s'.store.frames.size).Fronted (s.inner env) (s'.inner env') := by
  unfold State.inner
  rw [h.size]
  exact henv.openFrame _

/-- Both runs enter the body of a function. -/
theorem enter {args args' : List Value} (h : w.StateAlike s s') (hc : w.ClosureAlike c c')
    (hargs : List.Forall₂ w.ValueAlike args args') :
    (w.openFrame s'.store.frames.size).StateAlike (s.enter c args) (s'.enter c' args') := by
  have hargs' := valuesAlike_mono hargs (w.le_openFrame s'.store.frames.size)
  unfold State.enter
  rw [← hc.params]
  exact (h.openFrame c.env c'.env).defineAll (h.inner hc.env) hargs' c.params

theorem declare (h : w.StateAlike s s') (henv : w.Fronted env env') (x : Name)
    (params : List Name) (body : Program Node) :
    w.StateAlike (s.declare x params body env) (s'.declare x params body env') := by
  have hclosure : w.ClosureAlike (s.closure x params body env) (s'.closure x params body env') :=
    { id := h.nextFunction, name := rfl, params := rfl, body := rfl, env := henv.envAlike }
  have hcounted : w.StateAlike { s with nextFunction := s.nextFunction + 1 }
      { s' with nextFunction := s'.nextFunction + 1 } :=
    { h with nextFunction := by rw [h.nextFunction] }
  exact hcounted.define henv (.function hclosure) x

theorem print (h : w.StateAlike s s') (line : Text) :
    w.StateAlike { s with output := s.output.push line }
      { s' with output := s'.output.push line } :=
  { h with output := by rw [h.output] }

theorem counted (h : w.StateAlike s s') : w.StateAlike s.counted s'.counted :=
  { h with calls := congrArg Nat.succ h.calls }

private theorem binds_eq (h : w.StateAlike s s') (hij : w.frames[i]? = some j) (x : Name) :
    s.store.binds i x = s'.store.binds j x := by
  have hlookup := (h.frames i j hij).lookup x
  unfold Store.binds
  generalize (s.store.frame i).lookup x = found at hlookup
  generalize (s'.store.frame j).lookup x = found' at hlookup
  cases hlookup <;> rfl

/-- A name is found in the frame that corresponds, or nowhere. -/
theorem holder?_alike (h : w.StateAlike s s') (henv : w.EnvAlike env env') (x : Name) :
    Option.Rel (fun i j => w.frames[i]? = some j) (s.store.holder? x env)
      (s'.store.holder? x env') := by
  induction henv with
  | nil => exact .none
  | @frame i j _ _ hij _ ih =>
    rw [Store.holder?, Store.holder?, h.binds_eq hij]
    split
    · exact .some hij
    · exact ih
  | @extra j _ _ hj _ ih =>
    have hunbound : ¬ s'.store.binds j x := by
      unfold Store.binds
      rw [h.extras j hj]
      exact Bool.false_ne_true
    rw [Store.holder?, if_neg hunbound]
    exact ih

end Renumbering.StateAlike

/-- Every function that the state holds was declared in frames that exist. -/
def State.Closed (s : State) : Prop :=
  ∀ i, ∀ p ∈ s.store.frame i, ∀ c, p.2 = .function c → ∀ j ∈ c.env, j < s.store.frames.size

namespace Renumbering

variable {w : Renumbering} {s s' : State}

private theorem eq_of_getElem?_same {n i j : Nat} (h : (same n).frames[i]? = some j) : j = i := by
  obtain ⟨hi, heq⟩ := List.getElem?_eq_some_iff.mp h
  exact heq.symm.trans (List.getElem_range hi)

/-- A state without functions from elsewhere is the same in both runs. -/
theorem stateAlike_same (h : s.Closed) : (same s.store.frames.size).StateAlike s s where
  size := List.length_range.symm
  frame_lt j hj := List.mem_range.mp hj
  extra_lt _ hj := absurd hj List.not_mem_nil
  nodup := List.nodup_range
  disjoint _ hj := absurd hj List.not_mem_nil
  frames i j hij := by
    rw [eq_of_getElem?_same hij]
    refine List.forall₂_same.mpr fun p hp => ⟨rfl, ?_⟩
    cases hvalue : p.2 with
    | function c => exact .function ⟨⟨rfl, rfl, rfl⟩, rfl, envAlike_same (h i p hp c hvalue)⟩
    | _ => exact .same fun c hc => Value.noConfusion hc
  extras _ hj := absurd hj List.not_mem_nil
  output := rfl
  nextFunction := rfl
  calls := rfl

end Renumbering

end Lox
