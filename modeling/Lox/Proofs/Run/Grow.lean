import Lox.Proofs.Run.Outline
import Lox.Proofs.Run.World

/-! What a run does to the variables of the frames that are there: it removes none and moves none,
and a task adds only those that its code declares, in the innermost frame of its environment. -/

namespace Lox

/-- The second store has every variable of the first one. -/
def Store.Within (s t : Store) : Prop := ∀ i x, s.binds i x → t.binds i x

/-- The second store has the frames of the first one, and in each of them the same variables in the
same order, followed by new ones, which are among the given ones. -/
structure Store.Grows (added : Nat → Name → Prop) (s t : Store) : Prop where
  size : s.frames.size ≤ t.frames.size
  names : ∀ i, i < s.frames.size →
    ∃ new, (t.frame i).names = (s.frame i).names ++ new ∧ ∀ x ∈ new, added i x

private theorem Frame.isSome_lookup {f : Frame} {x : Name} : (f.lookup x).isSome ↔ x ∈ f.names := by
  induction f with
  | nil => simp [names]
  | cons p rest ih =>
    obtain ⟨y, v⟩ := p
    rw [lookup_cons]
    split
    · simp [names, *]
    · rw [ih]
      simp [names, *]

theorem Store.binds_iff {s : Store} {i : Nat} {x : Name} : s.binds i x ↔ x ∈ (s.frame i).names :=
  Frame.isSome_lookup

namespace Store.Grows

variable {added added' : Nat → Name → Prop} {s t u : Store} {env : Environment} {i : Nat} {x : Name}

theorem within (h : s.Grows added t) : s.Within t := by
  intro i x hx
  have hi : i < s.frames.size :=
    Nat.lt_of_not_le fun hle => World.not_binds_of_size_le s hle hx
  obtain ⟨new, hnew, -⟩ := h.names i hi
  rw [binds_iff, hnew]
  exact List.mem_append_left new (binds_iff.mp hx)

theorem only (h : s.Grows added t) (i : Nat) (x : Name) (hi : i < s.frames.size)
    (hx : t.binds i x) : s.binds i x ∨ added i x := by
  obtain ⟨new, hnew, hadded⟩ := h.names i hi
  rw [binds_iff, hnew] at hx
  rcases List.mem_append.mp hx with hx | hx
  · exact .inl (binds_iff.mpr hx)
  · exact .inr (hadded x hx)

/-- A frame to which nothing is added keeps its variables in their order. -/
theorem names_eq (h : s.Grows added t) (hi : i < s.frames.size) (hnone : ∀ x, ¬ added i x) :
    (t.frame i).names = (s.frame i).names := by
  obtain ⟨new, hnew, hadded⟩ := h.names i hi
  rw [hnew, List.eq_nil_iff_forall_not_mem.mpr fun x hx => hnone x (hadded x hx), List.append_nil]

theorem refl (s : Store) : s.Grows added s :=
  ⟨Nat.le_refl _, fun _ _ => ⟨[], (List.append_nil _).symm, fun _ => nofun⟩⟩

/-- What is added later counts only as far as it is added to the first frames. -/
theorem step (h : s.Grows added t) (h' : t.Grows added' u)
    (hadded : ∀ i x, i < s.frames.size → added' i x → added i x) : s.Grows added u := by
  refine ⟨Nat.le_trans h.size h'.size, fun i hi => ?_⟩
  obtain ⟨new, hnew, hfirst⟩ := h.names i hi
  obtain ⟨new', hnew', hlater⟩ := h'.names i (Nat.lt_of_lt_of_le hi h.size)
  refine ⟨new ++ new', by rw [hnew', hnew, List.append_assoc], fun x hx => ?_⟩
  rcases List.mem_append.mp hx with hx | hx
  · exact hfirst x hx
  · exact hadded i x hi (hlater x hx)

theorem trans (h : s.Grows added t) (h' : t.Grows added u) : s.Grows added u :=
  h.step h' fun _ _ _ => id

theorem setIn (s : Store) (v : Value) (hadded : s.binds i x ∨ added i x) :
    s.Grows added (s.setIn i x v) := by
  by_cases hi : i < s.frames.size
  · refine ⟨Nat.le_of_eq (size_setIn s i x v).symm, fun j _ => ?_⟩
    rw [frame_setIn s i j x v hi]
    by_cases hj : j = i
    · subst hj
      rw [if_pos rfl, Frame.names_set]
      by_cases hx : x ∈ (s.frame j).names
      · exact ⟨[], by simp [hx], fun _ => nofun⟩
      · rw [if_neg hx]
        refine ⟨[x], rfl, fun y hy => ?_⟩
        rw [List.mem_singleton.mp hy]
        exact hadded.resolve_left fun hbinds => hx (binds_iff.mp hbinds)
    · rw [if_neg hj]
      exact ⟨[], (List.append_nil _).symm, fun _ => nofun⟩
  · rw [World.setIn_of_size_le s (Nat.le_of_not_lt hi)]
    exact refl s

theorem define (s : Store) (v : Value) (hadded : ∀ i, env.head? = some i → added i x) :
    s.Grows added (s.define env x v) := by
  cases env with
  | nil => exact refl s
  | cons i env => exact setIn s v (.inr (hadded i rfl))

theorem child (s : Store) (env : Environment) : s.Grows added (s.child env).2 := by
  refine ⟨Nat.le_of_lt (by simp), fun i _ => ⟨[], ?_, fun _ => nofun⟩⟩
  rw [frame_child, List.append_nil]

private theorem defineAll (s : Store) (xs : List Name) (vs : List Value)
    (hadded : ∀ i x, env.head? = some i → x ∈ xs → added i x) :
    s.Grows added (s.defineAll env xs vs) := by
  induction xs generalizing s vs with
  | nil => exact refl s
  | cons x xs ih =>
    cases vs with
    | nil => exact refl s
    | cons v vs =>
      have hx : s.Grows added (s.define env x v) :=
        define s v fun i hi => hadded i x hi List.mem_cons_self
      exact hx.trans (ih _ vs fun i y hi hy => hadded i y hi (List.mem_cons_of_mem x hy))

/-- The parameters of a function are defined in the frame that a call opens. -/
theorem params (s : State) (f : Closure) (args : List Value) :
    (s.store.child f.env).2.Grows (fun i x => i = s.store.frames.size ∧ x ∈ f.params)
      (s.enter f args).store := by
  refine defineAll _ f.params args fun i x hi hx => ?_
  cases hi
  exact ⟨rfl, hx⟩

private theorem enter (s : State) (f : Closure) (args : List Value) :
    s.store.Grows added (s.enter f args).store := by
  refine (child s.store f.env).step (params s f args) fun i x hi hx => ?_
  have hsize : i = s.store.frames.size := hx.1
  omega

end Store.Grows

/-- The frame that a call opens has the parameters and nothing else. -/
theorem State.mem_params_of_enter {s : State} {f : Closure} {args : List Value} {x : Name}
    (hx : (s.enter f args).store.binds s.store.frames.size x) : x ∈ f.params := by
  have hsize : s.store.frames.size < (s.store.child f.env).2.frames.size := by simp
  rcases (Store.Grows.params s f args).only _ x hsize hx with hold | hnew
  · rw [World.binds_child] at hold
    exact absurd hold (World.not_binds_of_size_le _ (Nat.le_refl _))
  · exact hnew.2

/-- What a task does by itself adds to the frames that it finds only what it declares. -/
theorem Task.Changes.grows {task : Task} {s t : Store} (h : task.Changes s t) :
    s.Grows task.declares t := by
  cases h with
  | nothing => exact .refl s
  | opens _ env => exact .child s env
  | enters u f args => exact .enter u f args
  | defines _ env x v hadded => exact .define s v hadded
  | sets _ i x v hbinds => exact .setIn s v (.inl hbinds)

theorem Store.grows_composed (host : Host) :
    Task.Composed host fun task s t => s.Grows task.declares t where
  changes h := h.grows
  trans h h' := h.trans h'
  inner hchanges hcontains h := hchanges.grows.step h hcontains.declares

/-- A task adds to the frames that are there only what it declares, and removes nothing. -/
theorem Context.run_grows {ctx : Context} {work : Nat} {task : Task} {s t : State}
    (ho : (ctx.run work task s).state? = some t) : s.store.Grows task.declares t.store :=
  run_composed (Store.grows_composed ctx.host) ho

end Lox
