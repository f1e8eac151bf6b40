import Lox.Proofs.Resolution.Scoped
import Lox.Proofs.Run.Grow

/-! What fits into a world: environments for the places of a program, function values that its
declarations have made, and stores that hold only such values. -/

namespace Lox

/-- Where the code of a run comes from: the program, or the body of a function from before. -/
inductive Home where
  | program
  | guest (c : Closure)

/-- The owner of a frame that is opened for a block or a function there. -/
def Home.owner : Home → Stmt Node → Option (Stmt Node)
  | program, o => some o
  | guest _, _ => none

namespace Course

variable (r : Course)

def sites : Home → List Site
  | .program => Program.sites .top r.program
  | .guest c => Program.sites .top c.body

/-- In the environment a task runs as code at the place does. Of the frames of other code it is
known only that the program has not opened them. -/
def FitsEnv (w : World) (home : Home) (p : Place) (env : Environment) (v : Visit) : Prop :=
  match home with
  | .program => r.Active p.owners env v ∧ Labelled w.owners p.owners env ∧
    Bound w.store p.settled env
  | .guest c => r.Guest c ∧ r.Called c ∧ ∀ i, env.head? = some i → w.owners[i]? = some none

/-- The innermost frame has no variables but those that are settled at the place, if declarations of
the program stand only where they may. Unlike the environment, this fits only while the code of the
frame is at the place itself. -/
def Exact (w : World) (home : Home) (p : Place) (env : Environment) : Prop :=
  home = .program → Program.Scoped r.program → ∀ names outer, p.settled = names :: outer →
    ∀ i x, env.head? = some i → w.store.binds i x → x ∈ names

/-- A function that a declaration of the program has made, one from before, or one that such a
function has made when it was called. -/
inductive FitsClosure (w : World) : Closure → Prop where
  | program {u : Visit} {n : Node} {p : Place} {x params body env} :
      u.task = .execute env (.funDecl n x params body) →
      Program.sites (p.function n x params body) body ⊆ r.sites .program →
      r.FitsEnv w .program (p.after (.funDecl n x params body)) env u →
      FitsClosure w (u.state.closure x params body env)
  | guest {c c'} {p : Place} : r.Guest c' → (c = c' ∨ r.Called c') →
      Program.sites p c.body ⊆ r.sites (.guest c') → FitsClosure w c

def FitsValue (w : World) (v : Value) : Prop := ∀ c, v = .function c → r.FitsClosure w c

def FitsCompletion (w : World) : Completion → Prop
  | .normal => True
  | .returned v => r.FitsValue w v

/-- The world tells the owner of every frame; frames have only variables of their owner, with values
that fit. -/
structure Sound (w : World) : Prop where
  size : w.owners.length = w.store.frames.size
  names : ∀ i o, w.owners[i]? = some (some o) → ∀ x, w.store.binds i x → x ∈ o.scopeNames
  values : ∀ i x v, (w.store.frame i).lookup x = some v → r.FitsValue w v

variable {r} {w w' : World} {home : Home} {p : Place} {env : Environment} {v v' : Visit}

theorem FitsEnv.mono (h : r.FitsEnv w home p env v) (hw : w ≤ w') :
    r.FitsEnv w' home p env v := by
  cases home with
  | program => exact ⟨h.1, h.2.1.mono hw, h.2.2.mono hw⟩
  | guest c => exact ⟨h.1, h.2.1, fun i hi => World.owner_mono hw (h.2.2 i hi)⟩

theorem FitsEnv.trans (h : r.FitsEnv w home p env v) (hreach : r.ctx.Reaches v v') :
    r.FitsEnv w home p env v' := by
  cases home with
  | program => exact ⟨h.1.trans hreach, h.2⟩
  | guest c => exact h

theorem FitsClosure.mono {c : Closure} (h : r.FitsClosure w c) (hw : w ≤ w') :
    r.FitsClosure w' c := by
  cases h with
  | program htask hsites henv => exact .program htask hsites (henv.mono hw)
  | guest hguest hcalled hsites => exact .guest hguest hcalled hsites

theorem FitsValue.mono {a : Value} (h : r.FitsValue w a) (hw : w ≤ w') : r.FitsValue w' a :=
  fun c hc => (h c hc).mono hw

/-- Only functions can fail to fit. -/
theorem FitsValue.of_callable {a : Value} (h : a.callable = false) : r.FitsValue w a := by
  intro c hc
  rw [hc] at h
  cases h

theorem FitsEnv.moved {p' : Place} (h : r.FitsEnv w home p env v) (howners : p'.owners = p.owners)
    (hsettled : p'.settled = p.settled) : r.FitsEnv w home p' env v := by
  cases home with
  | program =>
    unfold FitsEnv at h ⊢
    rw [howners, hsettled]
    exact h
  | guest c => exact h

theorem FitsEnv.head_lt (h : r.FitsEnv w home p env v) {i : Nat} (hi : env.head? = some i) :
    i < w.owners.length := by
  cases home with
  | guest c => exact (List.getElem?_eq_some_iff.mp (h.2.2 i hi)).1
  | program =>
    have hlabels := h.2.1
    cases howners : p.owners with
    | nil =>
      rw [howners] at hlabels
      exact (List.getElem?_eq_some_iff.mp (hlabels i hi)).1
    | cons o owners =>
      rw [howners] at hlabels
      cases env with
      | nil => cases hi
      | cons j env =>
        cases hi
        exact (List.getElem?_eq_some_iff.mp hlabels.1).1

theorem FitsEnv.after (h : r.FitsEnv w home p env v) {s : Stmt Node}
    (hbound : ∀ x i, s.declared? = some x → env.head? = some i → i < w.owners.length →
      w.store.binds i x) : r.FitsEnv w home (p.after s) env v := by
  cases home with
  | guest c => exact h
  | program =>
    have hsettled : Bound w.store (Place.settle s.declared? p.settled) env :=
      h.2.2.settle fun _ x i hx hi => hbound x i hx hi (h.head_lt hi)
    exact ⟨h.1, h.2.1, hsettled⟩

theorem Exact.grow {added : Nat → Name → Prop} {p' : Place} (h : r.Exact w home p env)
    (henv : r.FitsEnv w home p env v) (hsound : r.Sound w) (hgrows : w.store.Grows added w'.store)
    (hp : home = .program → Program.Scoped r.program →
      ∀ names' outer', p'.settled = names' :: outer' →
        ∃ names outer, p.settled = names :: outer ∧ names ⊆ names' ∧
          ∀ i x, env.head? = some i → added i x → x ∈ names') :
    r.Exact w' home p' env := by
  intro hhome hscoped names' outer' hsettled' i x hi hx
  obtain ⟨names, outer, hsettled, hsubset, hadded⟩ := hp hhome hscoped names' outer' hsettled'
  have hsize : i < w.store.frames.size := by
    rw [← hsound.size]
    exact henv.head_lt hi
  rcases hgrows.only i x hsize hx with hx | hx
  · exact hsubset (h hhome hscoped names outer hsettled i x hi hx)
  · exact hadded i x hi hx

theorem Exact.same {added : Nat → Name → Prop} (h : r.Exact w home p env)
    (henv : r.FitsEnv w home p env v) (hsound : r.Sound w) (hgrows : w.store.Grows added w'.store)
    (hadded : home = .program → Program.Scoped r.program → ∀ i x, ¬ added i x) :
    r.Exact w' home p env := by
  refine h.grow henv hsound hgrows fun hhome hscoped names outer hsettled => ?_
  refine ⟨names, outer, hsettled, List.Subset.refl _, fun i x _ hx => ?_⟩
  exact absurd hx (hadded hhome hscoped i x)

theorem Exact.after (h : r.Exact w home p env) (henv : r.FitsEnv w home p env v)
    (hsound : r.Sound w) {s : Stmt Node}
    (hgrows : w.store.Grows (Task.declares (.execute env s)) w'.store)
    (hs : home = .program → Program.Scoped r.program → s.ownNames = s.declared?.toList) :
    r.Exact w' home (p.after s) env := by
  refine h.grow henv hsound hgrows fun hhome hscoped names' outer' hsettled' => ?_
  have hown := hs hhome hscoped
  have hsettle : Place.settle s.declared? p.settled = names' :: outer' := hsettled'
  cases hd : s.declared? with
  | none =>
    rw [hd] at hsettle hown
    refine ⟨names', outer', hsettle, List.Subset.refl _, fun i x _ hx => ?_⟩
    have hmem : x ∈ s.ownNames := hx.2
    rw [hown] at hmem
    exact absurd hmem List.not_mem_nil
  | some y =>
    rw [hd] at hsettle hown
    cases hp : p.settled with
    | nil => rw [hp] at hsettle; cases hsettle
    | cons names outer =>
      rw [hp] at hsettle
      cases hsettle
      refine ⟨names, _, rfl, List.subset_cons_self y names, fun i x _ hx => ?_⟩
      have hmem : x ∈ s.ownNames := hx.2
      rw [hown] at hmem
      rw [List.mem_singleton.mp hmem]
      exact List.mem_cons_self

namespace Sound

theorem labelled_openFrame (h : r.Sound w) (o : Option (Stmt Node)) :
    (w.openFrame o env).owners[w.store.frames.size]? = some o := by
  unfold World.openFrame
  rw [← h.size]
  exact List.getElem?_concat_length

theorem openFrame (h : r.Sound w) (o : Option (Stmt Node)) (env : Environment) :
    r.Sound (w.openFrame o env) := by
  constructor
  · simp [World.openFrame, h.size]
  · intro i o' ho x hx
    unfold World.openFrame at hx
    rw [World.binds_child] at hx
    by_cases hi : i < w.owners.length
    · refine h.names i o' ?_ x hx
      unfold World.openFrame at ho
      rwa [List.getElem?_append_left hi] at ho
    · have hsize : w.store.frames.size ≤ i := by
        rw [← h.size]
        exact Nat.le_of_not_lt hi
      exact absurd hx (World.not_binds_of_size_le _ hsize)
  · intro i x a ha
    unfold World.openFrame at ha
    rw [Store.frame_child] at ha
    exact (h.values i x a ha).mono World.le_openFrame

theorem set {i : Nat} {x : Name} {a : Value} (h : r.Sound w)
    (hname : ∀ o, w.owners[i]? = some (some o) → x ∈ o.scopeNames)
    (ha : r.FitsValue (w.set i x a) a) : r.Sound (w.set i x a) := by
  by_cases hi : i < w.store.frames.size
  · constructor
    · simp [World.set, h.size]
    · intro j o ho y hy
      unfold World.set at hy
      rw [World.binds_setIn _ hi] at hy
      rcases hy with ⟨rfl, rfl⟩ | hy
      · exact hname o ho
      · exact h.names j o ho y hy
    · intro j y b hb
      unfold World.set at hb
      rw [Store.frame_setIn _ i j x a hi] at hb
      split at hb
      · rw [Frame.lookup_set] at hb
        split at hb
        · cases hb
          exact ha
        · exact (h.values i y b hb).mono World.le_set
      · exact (h.values j y b hb).mono World.le_set
  · have hsame : w.set i x a = w := by
      unfold World.set
      rw [World.setIn_of_size_le _ (Nat.le_of_not_lt hi)]
    rw [hsame]
    exact h

theorem define {x : Name} {a : Value} (h : r.Sound w)
    (hname : ∀ i o, env.head? = some i → w.owners[i]? = some (some o) → x ∈ o.scopeNames)
    (ha : r.FitsValue (w.define env x a) a) : r.Sound (w.define env x a) := by
  cases env with
  | nil => exact h
  | cons i env => exact h.set (fun o ho => hname i o rfl ho) ha

theorem defineAll {i : Nat} {params : List Name} {args : List Value} (h : r.Sound w)
    (hnames : ∀ x ∈ params, ∀ o, w.owners[i]? = some (some o) → x ∈ o.scopeNames)
    (hargs : ∀ a ∈ args, r.FitsValue w a) :
    w ≤ w.defineAll (i :: env) params args ∧ r.Sound (w.defineAll (i :: env) params args) ∧
      (args.length = params.length → i < w.owners.length →
        ∀ x ∈ params, (w.defineAll (i :: env) params args).store.binds i x) := by
  induction params generalizing w args with
  | nil => exact ⟨le_refl w, h, fun _ _ x hx => absurd hx List.not_mem_nil⟩
  | cons y params ih =>
    cases args with
    | nil => exact ⟨le_refl w, h, fun hlength => absurd hlength (by simp)⟩
    | cons a args =>
      have ha : r.FitsValue (w.set i y a) a := (hargs a List.mem_cons_self).mono World.le_set
      have hset : r.Sound (w.set i y a) := h.set (hnames y List.mem_cons_self) ha
      obtain ⟨hle, hsound, hbound⟩ := ih hset
        (fun x hx => hnames x (List.mem_cons_of_mem _ hx))
        (fun b hb => (hargs b (List.mem_cons_of_mem _ hb)).mono World.le_set)
      refine ⟨le_trans World.le_set hle, hsound, fun hlength hi x hx => ?_⟩
      rcases List.mem_cons.mp hx with rfl | hx
      · refine hle.2 i x ?_
        unfold World.set
        rw [World.binds_setIn _ (by rw [← h.size]; exact hi)]
        exact .inl ⟨rfl, rfl⟩
      · exact hbound (by simpa using hlength) hi x hx

end Sound

end Course

end Lox
