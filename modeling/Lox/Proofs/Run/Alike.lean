import Lox.Proofs.Resolution.Shading
import Lox.Proofs.Run.Steps
import Lox.Proofs.Run.World

/-! Values and stores of two runs, of which the second one has a further variable in the frames of
shaded scopes. Apart from that variable the frames hold related values, and every access finds them
in the same frame. -/

namespace Lox

/-- Two values are the same, or functions of programs that are related. -/
inductive Value.Rel (R : Closure → Closure → Prop) : Value → Value → Prop where
  | same {v} : (∀ c, v ≠ .function c) → Rel R v v
  | function {c c'} : R c c' → Rel R (.function c) (.function c')

inductive Reply.Rel (R : Closure → Closure → Prop) : Reply → Reply → Prop where
  | value {v v'} : Value.Rel R v v' → Rel R (.value v) (.value v')
  | call {f f' args args' l} : Value.Rel R f f' → List.Forall₂ (Value.Rel R) args args' →
      Rel R (.call f args l) (.call f' args' l)

/-- All of two functions but their bodies is the same. -/
structure Closure.Matches (c c' : Closure) : Prop where
  id : c.id = c'.id
  name : c.name = c'.name
  params : c.params = c'.params
  env : c.env = c'.env

/-- What can be told of two functions without calling them is the same. -/
structure Closure.Resembles (c c' : Closure) : Prop where
  id : c.id = c'.id
  name : c.name = c'.name
  params : c.params = c'.params

theorem Closure.Matches.resembles {c c' : Closure} (h : c.Matches c') : c.Resembles c' :=
  ⟨h.id, h.name, h.params⟩

/-- The host does not look into the bodies of functions. -/
def Host.Uniform (host : Host) : Prop :=
  ∀ R : Closure → Closure → Prop, (∀ c c', R c c' → c.Matches c') → ∀ calls f args args',
    List.Forall₂ (Value.Rel R) args args' → Reply.Rel R (host calls f args) (host calls f args')

theorem Host.uniform_standard (clock : Clock) : (Host.standard clock).Uniform := by
  intro R _ calls f args args' _
  by_cases hf : f = Native.clock
  · rw [Host.standard, Host.standard, if_pos hf]
    exact .value (.same nofun)
  · rw [Host.standard, Host.standard, if_neg hf]
    exact .value (.same nofun)

namespace Value.Rel

variable {R R' : Closure → Closure → Prop} {v v' a a' : Value}

theorem mono (h : Value.Rel R v v') (hR : ∀ c c', R c c' → R' c c') : Value.Rel R' v v' := by
  cases h with
  | same h => exact .same h
  | function h => exact .function (hR _ _ h)

theorem of_not_callable (h : v.callable = false) : Value.Rel R v v := by
  refine .same fun c hc => ?_
  rw [hc] at h
  cases h

theorem truthy_eq (h : Value.Rel R v v') : v.truthy = v'.truthy := by
  cases h <;> rfl

section

variable (hR : ∀ c c', R c c' → c.Resembles c')

include hR

theorem text_eq (h : Value.Rel R v v') : v.text = v'.text := by
  cases h with
  | same => rfl
  | function h => rw [text, text, (hR _ _ h).name]

private theorem equal_eq (h : Value.Rel R v v') (ha : Value.Rel R a a') :
    v.equal a = v'.equal a' := by
  cases h with
  | same h =>
    cases ha with
    | same => rfl
    | function => cases v <;> first | rfl | exact absurd rfl (h _)
  | function h =>
    cases ha with
    | same ha => cases a <;> first | rfl | exact absurd rfl (ha _)
    | function ha => rw [equal, equal, (hR _ _ h).id, (hR _ _ ha).id]

end

end Value.Rel

theorem UnaryOp.apply_rel {R : Closure → Closure → Prop} {v v' : Value} (h : Value.Rel R v v')
    (op : UnaryOp) (l : Location) : op.apply v l = op.apply v' l := by
  cases op with
  | not =>
    have htruthy := h.truthy_eq
    simp only [apply, htruthy]
  | negate =>
    cases h with
    | same => rfl
    | function => rfl

private theorem BinaryOp.onValues_rel {R : Closure → Closure → Prop}
    (hR : ∀ c c', R c c' → c.Resembles c') {v v' a a' : Value} (h : Value.Rel R v v')
    (ha : Value.Rel R a a') (op : BinaryOp) : op.onValues v a = op.onValues v' a' := by
  have hequal := h.equal_eq hR ha
  cases op with
  | equal | notEqual => simp only [onValues, hequal]
  | _ =>
    cases h with
    | function => cases ha <;> rfl
    | same =>
      cases ha with
      | same => rfl
      | function => cases v <;> rfl

theorem BinaryOp.apply_rel {R : Closure → Closure → Prop}
    (hR : ∀ c c', R c c' → c.Resembles c') {v v' a a' : Value} (h : Value.Rel R v v')
    (ha : Value.Rel R a a') (op : BinaryOp) (l : Location) : op.apply v a l = op.apply v' a' l := by
  rw [apply, apply, onValues_rel hR h ha]

/-- An operator answers with what is no function, or fails, whatever the state. -/
theorem UnaryOp.apply_cases (op : UnaryOp) (v : Value) (l : Location) :
    (∃ a, a.callable = false ∧ ∀ s, op.apply v l s = .done a s) ∨
      ∃ e, ∀ s, op.apply v l s = .failed e s := by
  cases op with
  | not => exact .inl ⟨_, rfl, fun _ => rfl⟩
  | negate =>
    cases v with
    | number x => exact .inl ⟨_, rfl, fun _ => rfl⟩
    | _ => exact .inr ⟨_, fun _ => rfl⟩

theorem BinaryOp.apply_cases (op : BinaryOp) (v a : Value) (l : Location) :
    (∃ b, b.callable = false ∧ ∀ s, op.apply v a l s = .done b s) ∨
      ∃ e, ∀ s, op.apply v a l s = .failed e s := by
  unfold apply
  cases hvalues : op.onValues v a with
  | ok b => exact .inl ⟨b, onValues_ok hvalues, fun _ => rfl⟩
  | error fault => exact .inr ⟨_, fun _ => rfl⟩

/-- For every frame, whether it was opened for a shaded scope. -/
structure Shades where
  frames : List Bool

/-- Frames are only added. -/
instance : Preorder Shades where
  le w w' := w.frames <+: w'.frames
  le_refl _ := List.prefix_rfl
  le_trans _ _ _ := List.IsPrefix.trans

namespace Shades

def openFrame (w : Shades) (shaded : Bool) : Shades := ⟨w.frames ++ [shaded]⟩

/-- The frames of an environment have been opened for scopes that are shaded as the list tells; all
frames behind these are not. -/
def Covers (w : Shades) (shades : List Bool) (env : Environment) : Prop :=
  ∀ d i, env[d]? = some i → w.frames[i]? = some (shades.getD d false)

variable {w w' : Shades} {shades : List Bool} {env : Environment}

theorem le_openFrame (shaded : Bool) : w ≤ w.openFrame shaded := List.prefix_append ..

theorem getElem?_mono (hw : w ≤ w') {i : Nat} {shaded : Bool} (h : w.frames[i]? = some shaded) :
    w'.frames[i]? = some shaded := by
  obtain ⟨added, hadded⟩ := hw
  have hi : i < w.frames.length := (List.getElem?_eq_some_iff.mp h).1
  rw [← hadded, List.getElem?_append_left hi]
  exact h

theorem Covers.mono (h : w.Covers shades env) (hw : w ≤ w') : w'.Covers shades env :=
  fun d i hi => getElem?_mono hw (h d i hi)

/-- The environment inside a new frame. -/
theorem Covers.openFrame (h : w.Covers shades env) (shaded : Bool) :
    (w.openFrame shaded).Covers (shaded :: shades) (w.frames.length :: env) := by
  intro d i hi
  cases d with
  | zero =>
    cases hi
    exact List.getElem?_concat_length
  | succ d => exact getElem?_mono (le_openFrame shaded) (h d i hi)

end Shades

namespace Frame

/-- Frames with the same variables in the same order, and related values. -/
def Rel (R : Value → Value → Prop) : Frame → Frame → Prop :=
  List.Forall₂ fun p p' => p.1 = p'.1 ∧ R p.2 p'.2

variable {R R' : Value → Value → Prop} {f f' : Frame} {x y : Name} {v v' : Value}

theorem Rel.mono (h : Frame.Rel R f f') (hR : ∀ v v', R v v' → R' v v') : Frame.Rel R' f f' :=
  List.Forall₂.imp (fun _ _ hp => ⟨hp.1, hR _ _ hp.2⟩) h

theorem Rel.names_eq (h : Frame.Rel R f f') : f.names = f'.names := by
  induction h with
  | nil => rfl
  | cons hp _ ih =>
    unfold names at ih ⊢
    rw [List.map_cons, List.map_cons, hp.1, ih]

theorem Rel.lookup (h : Frame.Rel R f f') (x : Name) :
    Option.Rel R (f.lookup x) (f'.lookup x) := by
  induction h with
  | nil => exact .none
  | @cons p p' rest rest' hp _ ih =>
    obtain ⟨y, v⟩ := p
    obtain ⟨y', v'⟩ := p'
    obtain ⟨rfl, hv⟩ := hp
    rw [lookup_cons, lookup_cons]
    by_cases hx : x = y
    · rw [if_pos hx, if_pos hx]
      exact .some hv
    · rw [if_neg hx, if_neg hx]
      exact ih

theorem Rel.set (h : Frame.Rel R f f') (hv : R v v') (x : Name) :
    Frame.Rel R (f.set x v) (f'.set x v') := by
  induction h with
  | nil => exact .cons ⟨rfl, hv⟩ .nil
  | @cons p p' rest rest' hp hrest ih =>
    obtain ⟨y, w⟩ := p
    obtain ⟨y', w'⟩ := p'
    obtain ⟨rfl, hw⟩ := hp
    rw [Frame.set, Frame.set]
    by_cases hy : y = x
    · rw [if_pos hy, if_pos hy]
      exact .cons ⟨rfl, hv⟩ hrest
    · rw [if_neg hy, if_neg hy]
      exact .cons ⟨rfl, hw⟩ ih

/-- The frame without a variable. -/
def without (x : Name) (f : Frame) : Frame := f.filter fun p => p.1 ≠ x

private theorem lookup_without (hy : y ≠ x) (f : Frame) : (f.without x).lookup y = f.lookup y := by
  induction f with
  | nil => rfl
  | cons p rest ih =>
    obtain ⟨z, w⟩ := p
    unfold without at ih ⊢
    by_cases hz : z = x
    · have hyz : y ≠ z := fun heq => hy (heq.trans hz)
      rw [List.filter_cons_of_neg (by simp [hz]), lookup_cons, if_neg hyz, ih]
    · rw [List.filter_cons_of_pos (by simp [hz]), lookup_cons, lookup_cons, ih]

theorem without_set_self (f : Frame) : (f.set x v).without x = f.without x := by
  unfold without
  induction f with
  | nil => simp [Frame.set]
  | cons p rest ih =>
    obtain ⟨z, w⟩ := p
    by_cases hz : z = x
    · simp [Frame.set, hz]
    · simp only [Frame.set, if_neg hz]
      rw [List.filter_cons_of_pos (by simp [hz]), List.filter_cons_of_pos (by simp [hz]), ih]

private theorem without_set (hy : y ≠ x) (f : Frame) : (f.set y v).without x =
    (f.without x).set y v := by
  unfold without
  induction f with
  | nil => simp [Frame.set, hy]
  | cons p rest ih =>
    obtain ⟨z, w⟩ := p
    by_cases hzy : z = y
    · subst hzy
      simp [Frame.set, hy]
    · by_cases hz : z = x
      · simp only [Frame.set, if_neg hzy]
        rw [List.filter_cons_of_neg (by simp [hz]), List.filter_cons_of_neg (by simp [hz]), ih]
      · simp only [Frame.set, if_neg hzy]
        rw [List.filter_cons_of_pos (by simp [hz]), List.filter_cons_of_pos (by simp [hz]), ih]
        simp only [Frame.set, if_neg hzy]

end Frame

namespace Shading

variable (g : Shading)

/-- Functions that a declaration has made which is the same in both programs. -/
structure ClosureAlike (w : Shades) (c c' : Closure) : Prop extends Closure.Matches c c' where
  body : ∃ shaded shades, w.Covers shades c.env ∧
    g.ProgramAlike (shaded :: shades) c.body c'.body

abbrev ValueAlike (w : Shades) : Value → Value → Prop := Value.Rel (g.ClosureAlike w)

/-- The frames of a scope in the two runs. If the scope is shaded the further variable does not
count. -/
def FrameAlike (w : Shades) : Bool → Frame → Frame → Prop
  | false, f, f' => f.Rel (g.ValueAlike w) f'
  | true, f, f' => (f.without g.name).Rel (g.ValueAlike w) (f'.without g.name)

/-- The states of the two runs. No frame of the globals is shaded. -/
structure StateAlike (globals : Environment) (w : Shades) (s s' : State) : Prop where
  size : s.store.frames.size = w.frames.length
  size' : s'.store.frames.size = w.frames.length
  frames : ∀ i shaded, w.frames[i]? = some shaded →
    g.FrameAlike w shaded (s.store.frame i) (s'.store.frame i)
  output : s.output = s'.output
  nextFunction : s.nextFunction = s'.nextFunction
  calls : s.calls = s'.calls
  globals : ∀ i ∈ globals, w.frames[i]? = some false

variable {g} {globals : Environment} {w w' : Shades} {v v' : Value} {s s' : State} {x : Name}
  {env : Environment} {shaded : Bool} {f f' : Frame}

theorem ClosureAlike.mono {c c' : Closure} (h : g.ClosureAlike w c c') (hw : w ≤ w') :
    g.ClosureAlike w' c c' := by
  obtain ⟨shaded, shades, hcovers, hbody⟩ := h.body
  exact ⟨h.toMatches, shaded, shades, hcovers.mono hw, hbody⟩

theorem ValueAlike.mono (h : g.ValueAlike w v v') (hw : w ≤ w') : g.ValueAlike w' v v' :=
  Value.Rel.mono h fun _ _ hc => hc.mono hw

namespace FrameAlike

theorem mono (h : g.FrameAlike w shaded f f') (hw : w ≤ w') : g.FrameAlike w' shaded f f' := by
  cases shaded with
  | false => exact Frame.Rel.mono h fun _ _ hv => hv.mono hw
  | true => exact Frame.Rel.mono h fun _ _ hv => hv.mono hw

private theorem set (h : g.FrameAlike w shaded f f') (hv : g.ValueAlike w v v') (x : Name) :
    g.FrameAlike w shaded (f.set x v) (f'.set x v') := by
  cases shaded with
  | false => exact Frame.Rel.set h hv x
  | true =>
    rw [FrameAlike]
    by_cases hx : x = g.name
    · rw [hx, Frame.without_set_self, Frame.without_set_self]
      exact h
    · rw [Frame.without_set hx, Frame.without_set hx]
      exact Frame.Rel.set h hv x

/-- The further variable is defined in the second run only. -/
theorem shade (h : g.FrameAlike w true f f') (v : Value) :
    g.FrameAlike w true f (f'.set g.name v) := by
  rw [FrameAlike, Frame.without_set_self]
  exact h

theorem lookup (h : g.FrameAlike w shaded f f') (hx : shaded = true → x ≠ g.name) :
    Option.Rel (g.ValueAlike w) (f.lookup x) (f'.lookup x) := by
  cases shaded with
  | false => exact Frame.Rel.lookup h x
  | true =>
    have hlookup := Frame.Rel.lookup h x
    rwa [Frame.lookup_without (hx rfl), Frame.lookup_without (hx rfl)] at hlookup

end FrameAlike

namespace StateAlike

theorem setIn (h : g.StateAlike globals w s s') (hv : g.ValueAlike w v v') (i : Nat) (x : Name) :
    g.StateAlike globals w { s with store := s.store.setIn i x v }
      { s' with store := s'.store.setIn i x v' } := by
  refine { h with size := ?_, size' := ?_, frames := fun j shaded hj => ?_ }
  · rw [Store.size_setIn, h.size]
  · rw [Store.size_setIn, h.size']
  · by_cases hi : i < w.frames.length
    · rw [Store.frame_setIn _ _ _ _ _ (by rwa [h.size]),
        Store.frame_setIn _ _ _ _ _ (by rwa [h.size'])]
      by_cases hji : j = i
      · rw [if_pos hji, if_pos hji]
        rw [hji] at hj
        exact (h.frames i shaded hj).set hv x
      · rw [if_neg hji, if_neg hji]
        exact h.frames j shaded hj
    · have hsize := Nat.le_of_not_lt hi
      rw [World.setIn_of_size_le _ (by rwa [h.size]), World.setIn_of_size_le _ (by rwa [h.size'])]
      exact h.frames j shaded hj

theorem define (h : g.StateAlike globals w s s') (hv : g.ValueAlike w v v') (env : Environment)
    (x : Name) : g.StateAlike globals w (s.define env x v) (s'.define env x v') := by
  cases env with
  | nil => exact h
  | cons i env => exact h.setIn hv i x

/-- The further variable is defined in the second run only. -/
theorem shade {shades : List Bool} (h : g.StateAlike globals w s s')
    (henv : w.Covers (true :: shades) env) (v : Value) :
    g.StateAlike globals w s (s'.define env g.name v) := by
  cases env with
  | nil => exact h
  | cons i env =>
    have hi : w.frames[i]? = some true := henv 0 i rfl
    have hlt : i < s'.store.frames.size := by
      rw [h.size']
      exact (List.getElem?_eq_some_iff.mp hi).1
    refine { h with size' := ?_, frames := fun j shaded hj => ?_ }
    · rw [← h.size']
      exact Store.size_setIn ..
    · unfold State.define Store.define
      dsimp only
      rw [Store.frame_setIn _ _ _ _ _ hlt]
      by_cases hji : j = i
      · rw [if_pos hji]
        rw [hji] at hj ⊢
        rw [hi] at hj
        cases hj
        exact (h.frames i true hi).shade v
      · rw [if_neg hji]
        exact h.frames j shaded hj

theorem counted (h : g.StateAlike globals w s s') :
    g.StateAlike globals w s.counted s'.counted :=
  { h with calls := congrArg Nat.succ h.calls }

theorem openFrame (h : g.StateAlike globals w s s') (shaded : Bool) (env : Environment) :
    g.StateAlike globals (w.openFrame shaded) (s.openFrame env) (s'.openFrame env) := by
  refine ⟨?_, ?_, fun i shaded' hi => ?_, h.output, h.nextFunction, h.calls, fun i hi => ?_⟩
  · simp [State.openFrame, Shades.openFrame, h.size]
  · simp [State.openFrame, Shades.openFrame, h.size']
  · simp only [State.openFrame, Store.frame_child]
    by_cases hlt : i < w.frames.length
    · unfold Shades.openFrame at hi
      rw [List.getElem?_append_left hlt] at hi
      exact (h.frames i shaded' hi).mono (Shades.le_openFrame shaded)
    · have hnil {s : State} (hsize : s.store.frames.size = w.frames.length) :
          s.store.frame i = [] := by
        unfold Store.frame
        rw [Array.getD_eq_getD_getElem?, Array.getElem?_eq_none (by omega)]
        rfl
      rw [hnil h.size, hnil h.size']
      cases shaded' <;> exact .nil
  · exact Shades.getElem?_mono (Shades.le_openFrame shaded) (h.globals i hi)

/-- Both runs open the same frame next. -/
theorem inner_eq (h : g.StateAlike globals w s s') (env : Environment) :
    s.inner env = w.frames.length :: env ∧ s'.inner env = w.frames.length :: env := by
  unfold State.inner
  rw [h.size, h.size']
  exact ⟨rfl, rfl⟩

private theorem defineAll {args args' : List Value} (h : g.StateAlike globals w s s')
    (hargs : List.Forall₂ (g.ValueAlike w) args args') (env : Environment) (xs : List Name) :
    g.StateAlike globals w { s with store := s.store.defineAll env xs args }
      { s' with store := s'.store.defineAll env xs args' } := by
  induction xs generalizing s s' args args' with
  | nil => exact h
  | cons x xs ih =>
    cases hargs with
    | nil => exact h
    | cons hv hrest => exact ih (h.define hv env x) hrest

theorem enter {c c' : Closure} {args args' : List Value} (h : g.StateAlike globals w s s')
    (hc : c.Matches c') (hargs : List.Forall₂ (g.ValueAlike w) args args') (shaded : Bool) :
    g.StateAlike globals (w.openFrame shaded) (s.enter c args) (s'.enter c' args') := by
  have hargs' : List.Forall₂ (g.ValueAlike (w.openFrame shaded)) args args' :=
    List.Forall₂.imp (fun _ _ hv => hv.mono (Shades.le_openFrame shaded)) hargs
  have hdefined := (h.openFrame shaded c.env).defineAll hargs' (s.inner c.env) c.params
  have hinner : s.inner c.env = s'.inner c'.env := by
    rw [← hc.env, (h.inner_eq c.env).1, (h.inner_eq c.env).2]
  unfold State.enter
  rw [← hc.params, ← hc.env]
  rw [← hc.env] at hinner
  rw [← hinner]
  exact hdefined

theorem declare {body body' : Program Node} {shades : List Bool} (h : g.StateAlike globals w s s')
    (henv : w.Covers shades env) (hbody : g.ProgramAlike (shaded :: shades) body body')
    (x : Name) (params : List Name) :
    g.StateAlike globals w (s.declare x params body env) (s'.declare x params body' env) := by
  have hclosure : g.ClosureAlike w (s.closure x params body env)
      (s'.closure x params body' env) :=
    { id := h.nextFunction, name := rfl, params := rfl, env := rfl,
      body := ⟨shaded, shades, henv, hbody⟩ }
  have hcounted : g.StateAlike globals w { s with nextFunction := s.nextFunction + 1 }
      { s' with nextFunction := s'.nextFunction + 1 } :=
    { h with nextFunction := by rw [h.nextFunction] }
  exact hcounted.define (.function hclosure) env x

theorem print (h : g.StateAlike globals w s s') (line : Text) :
    g.StateAlike globals w { s with output := s.output.push line }
      { s' with output := s'.output.push line } :=
  { h with output := by rw [h.output] }

/-- Where an unshaded name is looked up, both runs find it or miss it. -/
theorem binds_eq {i : Nat} (h : g.StateAlike globals w s s') (hi : w.frames[i]? = some shaded)
    (hx : shaded = true → x ≠ g.name) : s.store.binds i x = s'.store.binds i x := by
  have hlookup := (h.frames i shaded hi).lookup hx
  unfold Store.binds
  generalize (s.store.frame i).lookup x = found at hlookup
  generalize (s'.store.frame i).lookup x = found' at hlookup
  cases hlookup <;> rfl

/-- In unshaded frames both runs find a name in the same one. -/
theorem holder?_eq (h : g.StateAlike globals w s s')
    (henv : ∀ i ∈ env, w.frames[i]? = some false) (x : Name) :
    s.store.holder? x env = s'.store.holder? x env ∧
      ∀ i, s.store.holder? x env = some i → i ∈ env := by
  induction env with
  | nil =>
    refine ⟨rfl, fun i hi => ?_⟩
    cases hi
  | cons i outer ih =>
    obtain ⟨heq, hfound⟩ := ih fun j hj => henv j (List.mem_cons_of_mem i hj)
    have hbinds := h.binds_eq (x := x) (henv i List.mem_cons_self)
      fun hshaded => absurd hshaded Bool.false_ne_true
    rw [Store.holder?, Store.holder?, hbinds, heq]
    refine ⟨rfl, fun j hj => ?_⟩
    split at hj
    · cases hj
      exact List.mem_cons_self
    · exact List.mem_cons_of_mem i (hfound j (heq.trans hj))

/-- The frames in which an access finds its variable. -/
theorem holder?_alike {shades : List Bool} {n n' : Node} (h : g.StateAlike globals w s s')
    (henv : w.Covers shades env) (hx : g.Access shades x n n') (host : Host) :
    Context.holder? ⟨globals, g.table, host⟩ env n x s.store =
        Context.holder? ⟨globals, g.table', host⟩ env n' x s'.store ∧
      ∀ i, Context.holder? ⟨globals, g.table, host⟩ env n x s.store = some i →
        ∃ shaded, w.frames[i]? = some shaded ∧ (shaded = true → x ≠ g.name) := by
  obtain ⟨d, htable, htable', hname⟩ := hx.entry
  unfold Context.holder?
  rw [htable, htable']
  cases d with
  | none =>
    obtain ⟨heq, hfound⟩ := h.holder?_eq h.globals x
    exact ⟨heq, fun i hi => ⟨false, h.globals i (hfound i hi), nofun⟩⟩
  | some d =>
    dsimp only [Resolution.ofDepth]
    unfold Store.holderAt?
    cases hdrop : env.drop d with
    | nil => exact ⟨rfl, nofun⟩
    | cons i outer =>
      have hi : w.frames[i]? = some (shades.getD d false) := by
        refine henv d i ?_
        rw [← List.head?_drop, hdrop]
        rfl
      have hshaded : shades.getD d false = true → x ≠ g.name := by
        intro hd heq
        refine hname heq d rfl ?_
        rw [List.getD_eq_getElem?_getD] at hd
        cases hget : shades[d]? with
        | none => rw [hget] at hd; cases hd
        | some shaded => rw [hget] at hd; exact congrArg some hd
      dsimp only
      rw [h.binds_eq hi hshaded]
      refine ⟨rfl, fun j hj => ?_⟩
      split at hj
      · cases hj
        exact ⟨_, hi, hshaded⟩
      · cases hj

end StateAlike

end Shading

end Lox
