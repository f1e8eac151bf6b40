import Lox.Proofs.Run.Undefined

/-! Environments that are made one after the other, and what a change of a variable does to all of
them. Environments share their frames, so the change is seen from exactly those whose search for the
name stops at the frame that was changed. -/

namespace Lox

/-- The environments made so far, in the order of their making, and what their frames hold. -/
structure Forest where
  store : Store
  environments : List Environment

namespace Forest

def empty : Forest := ⟨.empty, []⟩

def add (f : Forest) (made : Environment × Store) : Forest :=
  ⟨made.2, f.environments ++ [made.1]⟩

def root (f : Forest) (natives : List Native) : Forest := f.add (f.store.root natives)

def child (f : Forest) (env : Environment) : Forest := f.add (f.store.child env)

def fresh (f : Forest) : Forest := f.child []

def define (f : Forest) (env : Environment) (x : Name) (v : Value) : Forest :=
  { f with store := f.store.define env x v }

/-- What a change leaves, and how it ends. One that fails leaves everything as it was. -/
def attempt (f : Forest) : Except RuntimeError Store → Forest × Except RuntimeError Unit
  | .ok store => ({ f with store }, .ok ())
  | .error e => (f, .error e)

def assign (f : Forest) (env : Environment) (x : Name) (v : Value) (location : Option Location) :
    Forest × Except RuntimeError Unit :=
  f.attempt (f.store.assign env x v location)

def assignAt (f : Forest) (env : Environment) (distance : Nat) (x : Name) (v : Value)
    (location : Option Location) : Forest × Except RuntimeError Unit :=
  f.attempt (f.store.assignAt env distance x v location)

/-- What any sequence of operations leads to. Each is applied to an environment made before. -/
inductive Built : Forest → Prop
  | empty : Built .empty
  | root {f : Forest} (natives : List Native) : Built f → Built (f.root natives)
  | fresh {f : Forest} : Built f → Built f.fresh
  | child {f : Forest} {env : Environment} : Built f → env ∈ f.environments → Built (f.child env)
  | define {f : Forest} {env : Environment} (x : Name) (v : Value) :
    Built f → env ∈ f.environments → Built (f.define env x v)
  | assign {f : Forest} {env : Environment} (x : Name) (v : Value) (location : Option Location) :
    Built f → env ∈ f.environments → Built (f.assign env x v location).1
  | assignAt {f : Forest} {env : Environment} (distance : Nat) (x : Name) (v : Value)
    (location : Option Location) :
    Built f → env ∈ f.environments → Built (f.assignAt env distance x v location).1

end Forest

namespace Store

variable {s : Store} {x y : Name} {env env' found : Environment} {i j : Nat} {v : Value}

/-- From `env` outwards, `found` is the first environment that has a variable of its own with the
given name. -/
inductive Nearest (s : Store) (x : Name) : Environment → Environment → Prop
  | here {env : Environment} : x ∈ s.names env → Nearest s x env env
  | further {i : Nat} {outer found : Environment} : x ∉ s.names (i :: outer) →
    Nearest s x outer found → Nearest s x (i :: outer) found

/-- From both environments, the nearest one that has the variable is the same. -/
def SharesNearest (s : Store) (x : Name) (env env' : Environment) : Prop :=
  ∃ found, s.Nearest x env found ∧ s.Nearest x env' found

theorem Nearest.suffix (h : s.Nearest x env found) : found <:+ env := by
  induction h with
  | here => exact List.suffix_rfl
  | further _ _ ih => exact ih.trans (List.suffix_cons _ _)

/-- The search stops at the innermost frame of the nearest environment. -/
theorem Nearest.holder? (h : s.Nearest x env found) :
    ∃ i outer, found = i :: outer ∧ s.holder? x env = some i := by
  induction h with
  | @here env hx =>
    cases env with
    | nil => cases hx
    | cons i outer =>
      refine ⟨i, outer, rfl, ?_⟩
      rw [Store.holder?, if_pos (binds_iff.mpr hx)]
  | @further i outer found hx _ ih =>
    obtain ⟨j, rest, rfl, hj⟩ := ih
    refine ⟨j, rest, rfl, ?_⟩
    rw [Store.holder?, if_neg (mt binds_iff.mp hx), hj]

private theorem exists_nearest (h : s.holder? x env = some i) :
    ∃ outer, s.Nearest x env (i :: outer) := by
  induction env with
  | nil => cases h
  | cons j env ih =>
    rw [holder?] at h
    split at h
    · rename_i hx
      cases h
      exact ⟨env, .here (binds_iff.mp hx)⟩
    · rename_i hx
      obtain ⟨outer, hnearest⟩ := ih h
      exact ⟨outer, .further (mt binds_iff.mpr hx) hnearest⟩

/-- A search finds something exactly if an environment of the chain has the variable. -/
theorem exists_names_iff :
    (∃ c, c <:+ env ∧ x ∈ s.names c) ↔ (s.holder? x env).isSome := by
  rw [holder?_isSome]
  constructor
  · rintro ⟨_ | ⟨i, outer⟩, hsuffix, hx⟩
    · cases hx
    · exact ⟨i, hsuffix.subset List.mem_cons_self, binds_iff.mpr hx⟩
  · rintro ⟨i, hi, hx⟩
    obtain ⟨inner, outer, rfl⟩ := List.append_of_mem hi
    exact ⟨i :: outer, List.suffix_append inner _, binds_iff.mp hx⟩

section Set

theorem lt_size_of_binds (h : s.binds i x) : i < s.frames.size :=
  Nat.lt_of_not_le fun hle => World.not_binds_of_size_le s hle h

theorem frame_names_setIn (h : s.binds i x) (j : Nat) :
    ((s.setIn i x v).frame j).names = (s.frame j).names := by
  rw [frame_setIn s i j x v (lt_size_of_binds h)]
  split
  · rename_i hj
    rw [Frame.names_set, if_pos (binds_iff.mp h), hj]
  · rfl

private theorem names_setIn (h : s.binds i x) (env : Environment) :
    (s.setIn i x v).names env = s.names env := by
  cases env with
  | nil => rfl
  | cons j outer => exact frame_names_setIn h j

private theorem holder?_setIn (h : s.binds i x) (y : Name) (env : Environment) :
    (s.setIn i x v).holder? y env = s.holder? y env := by
  have hbinds (j : Nat) : (s.setIn i x v).binds j y ↔ s.binds j y := by
    rw [binds_iff, binds_iff, frame_names_setIn h]
  induction env with
  | nil => rfl
  | cons j outer ih => simp only [holder?, hbinds, ih]

/-- A changed variable is seen from where the search for its name stops at its frame. -/
theorem get?_setIn (h : s.binds i x) (env : Environment) (y : Name) :
    (s.setIn i x v).get? env y
      = if y = x ∧ s.holder? x env = some i then some v else s.get? env y := by
  unfold get?
  rw [holder?_setIn h]
  cases hj : s.holder? y env with
  | none =>
    have hnot : ¬ (y = x ∧ s.holder? x env = some i) := by
      rintro ⟨rfl, hi⟩
      rw [hj] at hi
      cases hi
    rw [if_neg hnot]
    rfl
  | some j =>
    simp only [Option.bind_some]
    rw [frame_setIn s i j x v (lt_size_of_binds h)]
    by_cases hji : j = i
    · subst hji
      rw [if_pos rfl, Frame.lookup_set]
      by_cases hy : y = x
      · subst hy
        rw [if_pos rfl, if_pos ⟨rfl, hj⟩]
      · rw [if_neg hy, if_neg fun hyx => hy hyx.1]
    · rw [if_neg hji, if_neg]
      rintro ⟨rfl, hi⟩
      rw [hj] at hi
      exact hji (Option.some.inj hi)

end Set

end Store

namespace Forest

variable {f : Forest} {env env' found : Environment} {i : Nat} {x : Name} {v : Value}

/-- The frames of every environment are there, what is around an environment is an environment too,
and no two environments have the same innermost frame. -/
structure Sound (f : Forest) : Prop where
  lt_size : ∀ env ∈ f.environments, ∀ i ∈ env, i < f.store.frames.size
  outer : ∀ i outer, i :: outer ∈ f.environments → outer = [] ∨ outer ∈ f.environments
  unique : ∀ i a b, i :: a ∈ f.environments → i :: b ∈ f.environments → a = b

theorem Sound.withStore (h : f.Sound) {store : Store}
    (hsize : store.frames.size = f.store.frames.size) : Sound { f with store } :=
  ⟨fun e he i hi => hsize ▸ h.lt_size e he i hi, h.outer, h.unique⟩

private theorem Sound.child (h : f.Sound) (henv : env = [] ∨ env ∈ f.environments) :
    (f.child env).Sound := by
  have hlt : ∀ i ∈ env, i < f.store.frames.size := by
    rcases henv with rfl | henv
    · nofun
    · exact h.lt_size env henv
  -- the new frame is in no environment that was there before
  have hnew (outer : Environment) : f.store.frames.size :: outer ∉ f.environments := fun hmem =>
    Nat.lt_irrefl _ (h.lt_size _ hmem _ List.mem_cons_self)
  have hmem (e : Environment) : e ∈ (f.child env).environments ↔
      e ∈ f.environments ∨ e = f.store.frames.size :: env := by
    simp [Forest.child, Forest.add, Store.child]
  have hsize : (f.child env).store.frames.size = f.store.frames.size + 1 :=
    Store.size_child f.store env
  constructor
  · intro e he i hi
    rw [hsize]
    rcases (hmem e).mp he with he | rfl
    · have := h.lt_size e he i hi
      omega
    · rcases List.mem_cons.mp hi with rfl | hi
      · omega
      · have := hlt i hi
        omega
  · intro i outer he
    rcases (hmem _).mp he with he | he
    · exact (h.outer i outer he).imp id fun houter => (hmem outer).mpr (.inl houter)
    · cases he
      exact henv.imp id fun henv => (hmem env).mpr (.inl henv)
  · intro i a b ha hb
    rcases (hmem _).mp ha with ha | ha <;> rcases (hmem _).mp hb with hb | hb
    · exact h.unique i a b ha hb
    · cases hb
      exact absurd ha (hnew a)
    · cases ha
      exact absurd hb (hnew b)
    · cases ha
      cases hb
      rfl

private theorem Sound.attempt (h : f.Sound) {answer : Except RuntimeError Store}
    (hsize : ∀ s, answer = .ok s → s.frames.size = f.store.frames.size) :
    (f.attempt answer).1.Sound := by
  cases answer with
  | error e => exact h
  | ok s => exact h.withStore (hsize s rfl)

private theorem exists_setIn_of_orUndefined {holder : Option Nat} {location : Option Location}
    {s : Store}
    (h : RuntimeError.orUndefined x location (holder.map fun i => f.store.setIn i x v) = .ok s) :
    ∃ i, holder = some i ∧ s = f.store.setIn i x v := by
  cases holder with
  | none => cases h
  | some i =>
    cases h
    exact ⟨i, rfl, rfl⟩

private theorem Built.sound (h : f.Built) : f.Sound := by
  induction h with
  | empty => exact ⟨nofun, nofun, nofun⟩
  | @root f natives _ ih =>
    refine (ih.child (.inl rfl)).withStore ?_
    exact Store.size_defineNatives (f.store.child []).2 (f.store.child []).1 natives
  | fresh _ ih => exact ih.child (.inl rfl)
  | child _ henv ih => exact ih.child (.inr henv)
  | @define f env x v _ _ ih =>
    refine ih.withStore ?_
    cases env with
    | nil => rfl
    | cons i outer => exact Store.size_setIn f.store i x v
  | @assign f _ x v _ _ _ ih =>
    refine ih.attempt fun s hs => ?_
    obtain ⟨i, -, rfl⟩ := exists_setIn_of_orUndefined hs
    exact Store.size_setIn f.store i x v
  | @assignAt f _ _ x v _ _ _ ih =>
    refine ih.attempt fun s hs => ?_
    obtain ⟨i, -, rfl⟩ := exists_setIn_of_orUndefined hs
    exact Store.size_setIn f.store i x v

private theorem Sound.suffix (h : f.Sound) (henv : env ∈ f.environments) (hsuffix : found <:+ env) :
    found = [] ∨ found ∈ f.environments := by
  induction env with
  | nil => exact .inl (List.suffix_nil.mp hsuffix)
  | cons i outer ih =>
    rcases List.suffix_cons_iff.mp hsuffix with rfl | hsuffix
    · exact .inr henv
    · rcases h.outer i outer henv with rfl | houter
      · exact .inl (List.suffix_nil.mp hsuffix)
      · exact ih houter hsuffix

/-- Two searches stop at the same frame exactly if they find the same environment. -/
theorem Sound.sharesNearest_iff (h : f.Sound) (henv : env ∈ f.environments)
    (henv' : env' ∈ f.environments) (hi : f.store.holder? x env = some i) :
    f.store.SharesNearest x env env' ↔ f.store.holder? x env' = some i := by
  constructor
  · rintro ⟨a, ha, ha'⟩
    obtain ⟨j, outer, rfl, hj⟩ := ha.holder?
    obtain ⟨j', outer', hsame, hj'⟩ := ha'.holder?
    cases hsame
    rw [hj', ← hj, hi]
  · intro hi'
    obtain ⟨outer, hnearest⟩ := Store.exists_nearest hi
    obtain ⟨outer', hnearest'⟩ := Store.exists_nearest hi'
    have hmem : i :: outer ∈ f.environments :=
      (h.suffix henv hnearest.suffix).resolve_left (List.cons_ne_nil _ _)
    have hmem' : i :: outer' ∈ f.environments :=
      (h.suffix henv' hnearest'.suffix).resolve_left (List.cons_ne_nil _ _)
    rw [h.unique i outer' outer hmem' hmem] at hnearest'
    exact ⟨_, hnearest, hnearest'⟩

/-- Assigning to a variable of the chain changes what is read of that name from where the search
stops at the same environment, and nothing else; where the chain has no such variable, it fails and
changes nothing. No environment gets or loses a name. -/
theorem assign_changes_one (h : f.Built) (henv : env ∈ f.environments) (x : Name) (v : Value)
    (location : Option Location) :
    ((∃ c, c <:+ env ∧ x ∈ f.store.names c) →
      ∃ g, f.assign env x v location = (g, .ok ()) ∧ g.environments = f.environments ∧
        ∀ env' ∈ f.environments, g.store.names env' = f.store.names env' ∧
          ∀ (y : Name) (place : Option Location),
            (y = x ∧ f.store.SharesNearest x env env' → g.store.get env' y place = .ok v) ∧
              (¬ (y = x ∧ f.store.SharesNearest x env env') →
                g.store.get env' y place = f.store.get env' y place)) ∧
      ((¬ ∃ c, c <:+ env ∧ x ∈ f.store.names c) →
        f.assign env x v location = (f, .error ⟨.undefinedVariable x, location⟩)) := by
  have hsound := h.sound
  rw [Store.exists_names_iff]
  unfold Forest.assign Store.assign Store.assign?
  cases hi : f.store.holder? x env with
  | none => exact ⟨nofun, fun _ => rfl⟩
  | some i =>
    have hbinds : f.store.binds i x := Store.binds_of_holder? hi
    refine ⟨fun _ => ⟨{ f with store := f.store.setIn i x v }, rfl, rfl, ?_⟩, fun hnone => ?_⟩
    · intro env' henv'
      refine ⟨Store.names_setIn hbinds env', fun y place => ?_⟩
      rw [hsound.sharesNearest_iff henv henv' hi, Store.get, Store.get, Store.get?_setIn hbinds]
      refine ⟨fun hseen => ?_, fun hunseen => ?_⟩
      · rw [if_pos hseen]
        rfl
      · rw [if_neg hunseen]
    · exact absurd rfl hnone

/-- A change through one child is seen in the parent and not in the other child, which has a
variable of its own. -/
theorem assign_changes_one_shadowed :
    let family := (Forest.empty.fresh.child [0]).child [0]
    let f := (family.define [0] "a" .nil).define [1, 0] "a" .nil
    f.Built ∧ [2, 0] ∈ f.environments ∧ ∃ g, f.assign [2, 0] "a" (.bool true) none = (g, .ok ()) ∧
      g.store.get [0] "a" none = .ok (.bool true) ∧ g.store.get [1, 0] "a" none = .ok .nil := by
  intro family f
  have hroot : [0] ∈ Forest.empty.fresh.environments := List.mem_singleton.mpr rfl
  have hmem : ∀ env ∈ [[0], [1, 0], [2, 0]], env ∈ f.environments := fun _ => id
  have hbuilt : f.Built := by
    refine .define "a" .nil (.define "a" .nil (.child (.child (.fresh .empty) hroot) ?_) ?_) ?_
    · exact List.mem_cons_self
    · exact List.mem_cons_self
    · exact List.mem_cons_of_mem _ List.mem_cons_self
  have hfound : f.store.Nearest "a" [2, 0] [0] := .further (by decide) (.here (by decide))
  have hmain := assign_changes_one hbuilt (hmem [2, 0] (by decide)) "a" (.bool true) none
  obtain ⟨g, hg, -, hread⟩ := hmain.1 ⟨[0], hfound.suffix, by decide⟩
  refine ⟨hbuilt, hmem [2, 0] (by decide), g, hg, ?_, ?_⟩
  · have hparent := (hread [0] (hmem [0] (by decide))).2 "a" none
    exact hparent.1 ⟨rfl, [0], hfound, .here (by decide)⟩
  · have hsibling := (hread [1, 0] (hmem [1, 0] (by decide))).2 "a" none
    refine (hsibling.2 ?_).trans rfl
    rintro ⟨-, found, hfound, hfound'⟩
    obtain ⟨i, outer, rfl, hi⟩ := hfound.holder?
    obtain ⟨j, outer', hsame, hj⟩ := hfound'.holder?
    cases hsame
    have hboth : f.store.holder? "a" [2, 0] = f.store.holder? "a" [1, 0] := hi.trans hj.symm
    exact absurd hboth (by decide)

end Forest

end Lox
