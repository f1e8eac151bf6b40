import Lox.Proofs.Run.Simulation

/-! How computations end that are put together from the tasks of a run, and when the computations of
two runs end alike. Both are told of a whole from its parts. -/

namespace Lox

section

variable {α β : Type} {m : Nat → Outcome α} {o : Outcome α}

theorem ends_const {a : α} {s : State} : Ends (fun _ => .done a s) o ↔ o = .done a s := by
  constructor
  · rintro ⟨-, -, rfl⟩
    rfl
  · rintro rfl
    exact ⟨Outcome.done_ne_exhausted a s, 0, rfl⟩

theorem steady_const (o : Outcome α) : Steady fun _ => o := fun _ _ _ _ => rfl

/-- The work of the first step does not count. -/
theorem ends_succ (h : m 0 = .exhausted) : Ends m o ↔ Ends (fun work => m (work + 1)) o := by
  refine and_congr_right fun hne => ⟨?_, fun ⟨work, hwork⟩ => ⟨work + 1, hwork⟩⟩
  rintro ⟨work, rfl⟩
  cases work with
  | zero => exact absurd h hne
  | succ work => exact ⟨work, rfl⟩

theorem Outcome.map_eq_exhausted {f : α → β} : o.map f = .exhausted ↔ o = .exhausted := by
  cases o <;> simp [map]

theorem Outcome.map_injective {f : α → β} (hf : Function.Injective f) :
    Function.Injective (Outcome.map f) := by
  intro o o' h
  cases o <;> cases o' <;> simp_all [map, hf.eq_iff]

theorem ends_map {f : α → β} {o' : Outcome β} :
    Ends (fun work => (m work).map f) o' ↔ ∃ o, Ends m o ∧ o.map f = o' := by
  constructor
  · rintro ⟨hne, work, rfl⟩
    exact ⟨m work, ⟨fun h => hne (Outcome.map_eq_exhausted.mpr h), work, rfl⟩, rfl⟩
  · rintro ⟨o, ⟨hne, work, rfl⟩, rfl⟩
    exact ⟨fun h => hne (Outcome.map_eq_exhausted.mp h), work, rfl⟩

theorem Steady.of_map {f : α → β} (hf : Function.Injective f)
    (h : Steady fun work => (m work).map f) : Steady m := by
  intro work work' hle hne
  refine Outcome.map_injective hf (h work work' hle fun hmap => hne ?_)
  exact Outcome.map_eq_exhausted.mp hmap

/-- Does one round after the other, up to the first that has a result. -/
def Eval.iterate (round : Nat → Eval (Option α)) : Nat → Eval α
  | 0 => Eval.exhausted
  | work + 1 => do
    match ← round work with
    | some a => return a
    | none => Eval.iterate round work

/-- A loop ends with the first round, or as the loop from there on. -/
theorem ends_iterate {round : Nat → Eval (Option α)} {s : State}
    (hround : Steady fun work => round work s)
    (hrest : ∀ t, Ends (fun work => round work s) (.done none t) →
      Steady fun work => Eval.iterate round work t) :
    Ends (fun work => Eval.iterate round work s) o ↔
      ((∃ a t, Ends (fun work => round work s) (.done (some a) t) ∧ o = .done a t) ∨
        ∃ t, Ends (fun work => round work s) (.done none t) ∧
          Ends (fun work => Eval.iterate round work t) o) ∨
      ∃ e t, o = .failed e t ∧ Ends (fun work => round work s) (.failed e t) := by
  have hnext (r : Option α) (t : State) : Ends (fun work => round work s) (.done r t) →
      Steady fun work =>
        (match r with
          | some a => return a
          | none => Eval.iterate round work : Eval α) t := by
    intro hr
    cases r with
    | some a => exact steady_const _
    | none => exact hrest t hr
  refine (ends_succ rfl).trans ((ends_bind hround hnext).trans (or_congr_left ⟨?_, ?_⟩))
  · rintro ⟨r, t, hr, hends⟩
    cases r with
    | some a => exact .inl ⟨a, t, hr, ends_const.mp hends⟩
    | none => exact .inr ⟨t, hr, hends⟩
  · rintro (⟨a, t, hr, rfl⟩ | ⟨t, hr, hends⟩)
    · exact ⟨some a, t, hr, ends_const.mpr rfl⟩
    · exact ⟨none, t, hr, hends⟩

end

namespace Context

variable {ctx : Context} {env : Environment} {s : State}

theorem steady_run (ctx : Context) (task : Task) (s : State) :
    Steady fun work => ctx.run work task s :=
  fun _ _ hle hne => run_mono hle hne

theorem steady_evaluate (ctx : Context) (env : Environment) (e : Expr Node) (s : State) :
    Steady fun work => ctx.evaluate work env e s :=
  .of_map (fun _ _ => Answer.value.inj) (ctx.steady_run (.evaluate env e) s)

theorem steady_execute (ctx : Context) (env : Environment) (stmt : Stmt Node) (s : State) :
    Steady fun work => ctx.execute work env stmt s :=
  .of_map (fun _ _ => Answer.completion.inj) (ctx.steady_run (.execute env stmt) s)

theorem steady_executeAll (ctx : Context) (env : Environment) (p : Program Node) (s : State) :
    Steady fun work => ctx.executeAll work env p s :=
  .of_map (fun _ _ => Answer.completion.inj) (ctx.steady_run (.executeAll env p) s)

theorem ends_execute {stmt : Stmt Node} {o : Outcome Completion} :
    Ends (fun work => ctx.execute work env stmt s) o ↔
      ctx.Yields (.execute env stmt) s (o.map .completion) := by
  have hmap : Function.Injective (Outcome.map Answer.completion) :=
    Outcome.map_injective fun _ _ => Answer.completion.inj
  refine Iff.trans ⟨fun h => ⟨o, h, rfl⟩, ?_⟩ ends_map.symm
  rintro ⟨o₁, h, heq⟩
  rwa [← hmap heq]

theorem ends_block {n : Node} {body : Program Node} {o : Outcome Completion} :
    Ends (fun work => ctx.execute work env (.block n body) s) o ↔
      Ends (fun work => ctx.executeAll work (s.inner env) body (s.openFrame env)) o :=
  ends_succ rfl

private theorem ends_nil {o : Outcome Completion} :
    Ends (fun work => ctx.executeAll work env [] s) o ↔ o = .done .normal s :=
  (ends_succ rfl).trans ends_const

/-- What comes after a statement: the next ones, unless it returned. -/
def afterwards (ctx : Context) (env : Environment) (rest : Program Node) (work : Nat) :
    Completion → Eval Completion
  | .normal => ctx.executeAll work env rest
  | .returned v => return .returned v

private theorem steady_afterwards (rest : Program Node) (c : Completion) (s : State) :
    Steady fun work => ctx.afterwards env rest work c s := by
  cases c with
  | normal => exact ctx.steady_executeAll env rest s
  | returned v => exact steady_const _

theorem ends_cons {stmt : Stmt Node} {rest : Program Node} {o : Outcome Completion} :
    Ends (fun work => ctx.executeAll work env (stmt :: rest) s) o ↔
      Ends (fun work => (ctx.execute work env stmt >>= ctx.afterwards env rest work) s) o :=
  ends_succ rfl

/-- The last statement decides how statements end. -/
theorem ends_singleton {stmt : Stmt Node} {o : Outcome Completion} :
    Ends (fun work => ctx.executeAll work env [stmt] s) o ↔
      Ends (fun work => ctx.execute work env stmt s) o := by
  have hnext (c : Completion) (t : State) {o : Outcome Completion} :
      Ends (fun work => ctx.afterwards env [] work c t) o ↔ o = .done c t := by
    cases c with
    | normal => exact ends_nil
    | returned v => exact ends_const
  refine ends_cons.trans ((ends_bind (ctx.steady_execute env stmt s) fun c t _ =>
    steady_afterwards [] c t).trans ⟨?_, fun h => ?_⟩)
  · rintro (⟨c, t, h, hrest⟩ | ⟨e, t, rfl, h⟩)
    · rwa [(hnext c t).mp hrest]
    · exact h
  · cases o with
    | done c t => exact .inl ⟨c, t, h, (hnext c t).mpr rfl⟩
    | failed e t => exact .inr ⟨e, t, rfl, h⟩
    | exhausted => exact absurd rfl h.1

end Context

/-- Both end in the same way, with related results in related states; errors are the same. -/
inductive Outcome.Rel {α β : Type} (A : α → β → Prop) (S : State → State → Prop) :
    Outcome α → Outcome β → Prop where
  | done {a b s t} : A a b → S s t → Rel A S (.done a s) (.done b t)
  | failed {s t} (e : RuntimeError) : S s t → Rel A S (.failed e s) (.failed e t)

section

variable {World α β γ δ : Type} {S : World → State → State → Prop} {A A' : World → α → β → Prop}
  {B : World → γ → δ → Prop} {w w' : World}

theorem Outcome.Rel.imp {A A' : α → β → Prop} {S : State → State → Prop} {o : Outcome α}
    {o' : Outcome β} (h : Outcome.Rel A S o o') (hA : ∀ a b, A a b → A' a b) :
    Outcome.Rel A' S o o' := by
  cases h with
  | done ha hs => exact .done (hA _ _ ha) hs
  | failed e hs => exact .failed e hs

theorem Outcome.Rel.flip {A : α → β → Prop} {S : State → State → Prop} {o : Outcome α}
    {o' : Outcome β} (h : Outcome.Rel A S o o') :
    Outcome.Rel (fun b a => A a b) (fun t s => S s t) o' o := by
  cases h with
  | done ha hs => exact .done ha hs
  | failed e hs => exact .failed e hs

theorem Outcome.Rel.of_map {f : α → γ} {g : β → δ} {A : γ → δ → Prop} {S : State → State → Prop}
    {o : Outcome α} {o' : Outcome β} (h : Outcome.Rel A S (o.map f) (o'.map g)) :
    Outcome.Rel (fun a b => A (f a) (g b)) S o o' := by
  cases o <;> cases o' <;> cases h
  · exact .done ‹_› ‹_›
  · exact .failed _ ‹_›

variable [Preorder World]

/-- If the first computation ends, so does the second, alike in a later world. -/
def Follows (S : World → State → State → Prop) (A : World → α → β → Prop) (w : World)
    (m : Nat → Outcome α) (m' : Nat → Outcome β) : Prop :=
  ∀ o, Ends m o → ∃ o' w', w ≤ w' ∧ Ends m' o' ∧ Outcome.Rel (A w') (S w') o o'

namespace Follows

variable {m : Nat → Outcome α} {m' : Nat → Outcome β}

theorem done {a : α} {b : β} {s s' : State} (ha : A w a b) (hs : S w s s') :
    Follows S A w (fun _ => .done a s) (fun _ => .done b s') := by
  intro o ho
  rw [ends_const.mp ho]
  exact ⟨_, w, le_refl w, ends_const.mpr rfl, .done ha hs⟩

theorem later (h : Follows S A w' m m') (hw : w ≤ w') : Follows S A w m m' := by
  intro o ho
  obtain ⟨o', w'', hw', ho', hrel⟩ := h o ho
  exact ⟨o', w'', le_trans hw hw', ho', hrel⟩

theorem imp (h : Follows S A w m m') (hA : ∀ w a b, A w a b → A' w a b) : Follows S A' w m m' := by
  intro o ho
  obtain ⟨o', w', hw, ho', hrel⟩ := h o ho
  exact ⟨o', w', hw, ho', hrel.imp (hA w')⟩

theorem of_map {f : α → γ} {g : β → δ}
    (h : Follows S B w (fun work => (m work).map f) (fun work => (m' work).map g)) :
    Follows S (fun w a b => B w (f a) (g b)) w m m' := by
  intro o ho
  obtain ⟨_, w', hw, hmap, hrel⟩ := h _ (ends_map.mpr ⟨o, ho, rfl⟩)
  obtain ⟨o', ho', rfl⟩ := ends_map.mp hmap
  exact ⟨o', w', hw, ho', hrel.of_map⟩

end Follows

/-- Each of the two computations ends if the other one does, and both end alike in a later world.
More work changes neither end. -/
structure EndAlike (S : World → State → State → Prop) (A : World → α → β → Prop) (w : World)
    (m : Nat → Outcome α) (m' : Nat → Outcome β) : Prop where
  steady : Steady m
  steady' : Steady m'
  there : Follows S A w m m'
  back : Follows (fun w t s => S w s t) (fun w b a => A w a b) w m' m

namespace EndAlike

section

variable {m : Nat → Outcome α} {m' m'' : Nat → Outcome β}

theorem flip (h : EndAlike S A w m m') :
    EndAlike (fun w t s => S w s t) (fun w b a => A w a b) w m' m :=
  ⟨h.steady', h.steady, h.back, h.there⟩

theorem done {a : α} {b : β} {s s' : State} (ha : A w a b) (hs : S w s s') :
    EndAlike S A w (fun _ => .done a s) (fun _ => .done b s') :=
  ⟨steady_const _, steady_const _, .done ha hs, .done ha hs⟩

theorem later (h : EndAlike S A w' m m') (hw : w ≤ w') : EndAlike S A w m m' :=
  ⟨h.steady, h.steady', h.there.later hw, h.back.later hw⟩

theorem imp (h : EndAlike S A w m m') (hA : ∀ w a b, A w a b → A' w a b) :
    EndAlike S A' w m m' :=
  ⟨h.steady, h.steady', h.there.imp hA, h.back.imp fun w b a => hA w a b⟩

/-- The second computation can be another one that ends in the same way. -/
theorem congr (h : EndAlike S A w m m') (hsteady : Steady m'')
    (hends : ∀ o, Ends m'' o ↔ Ends m' o) : EndAlike S A w m m'' where
  steady := h.steady
  steady' := hsteady
  there o ho := by
    obtain ⟨o', w', hw, ho', hrel⟩ := h.there o ho
    exact ⟨o', w', hw, (hends o').mpr ho', hrel⟩
  back o ho := h.back o ((hends o).mp ho)

/-- Computations end alike if they do once their results are wrapped. -/
theorem of_map {f : α → γ} {g : β → δ} (hf : Function.Injective f) (hg : Function.Injective g)
    (h : EndAlike S B w (fun work => (m work).map f) (fun work => (m' work).map g)) :
    EndAlike S (fun w a b => B w (f a) (g b)) w m m' :=
  ⟨.of_map hf h.steady, .of_map hg h.steady', h.there.of_map, h.back.of_map⟩

end

section

variable {m : Nat → Eval α} {m' : Nat → Eval β} {f : Nat → α → Eval γ} {f' : Nat → β → Eval δ}
  {s s' : State}

/-- What comes after an end of the first computation does not change with more work. -/
theorem steady_next (hm : EndAlike S A w (fun work => m work s) (fun work => m' work s'))
    (hf : ∀ w' a b t t', w ≤ w' → A w' a b → S w' t t' →
      EndAlike S B w' (fun work => f work a t) (fun work => f' work b t'))
    (a : α) (t : State) (ha : Ends (fun work => m work s) (.done a t)) :
    Steady fun work => f work a t := by
  obtain ⟨o', w', hw, -, hrel⟩ := hm.there _ ha
  cases hrel with
  | done hab ht => exact (hf w' _ _ _ _ hw hab ht).steady

private theorem follows_bind (hm : EndAlike S A w (fun work => m work s) (fun work => m' work s'))
    (hf : ∀ w' a b t t', w ≤ w' → A w' a b → S w' t t' →
      EndAlike S B w' (fun work => f work a t) (fun work => f' work b t')) :
    Follows S B w (fun work => (m work >>= f work) s) (fun work => (m' work >>= f' work) s') := by
  have hends {o : Outcome δ} := ends_bind (o := o) hm.steady' fun b t' =>
    hm.flip.steady_next (fun w' b a t' t hw hab ht => (hf w' a b t t' hw hab ht).flip) b t'
  intro o ho
  rcases (ends_bind hm.steady (hm.steady_next hf)).mp ho with ⟨a, t, ha, ho⟩ | ⟨e, t, rfl, he⟩
  · obtain ⟨o₁, w', hw, hb, hrel⟩ := hm.there _ ha
    cases hrel with
    | done hab ht =>
      obtain ⟨o', w'', hw', ho', hrel'⟩ := (hf w' _ _ _ _ hw hab ht).there o ho
      exact ⟨o', w'', le_trans hw hw', hends.mpr (.inl ⟨_, _, hb, ho'⟩), hrel'⟩
  · obtain ⟨o₁, w', hw, he', hrel⟩ := hm.there _ he
    cases hrel with
    | failed e ht => exact ⟨_, w', hw, hends.mpr (.inr ⟨_, _, rfl, he'⟩), .failed e ht⟩

theorem bind (hm : EndAlike S A w (fun work => m work s) (fun work => m' work s'))
    (hf : ∀ w' a b t t', w ≤ w' → A w' a b → S w' t t' →
      EndAlike S B w' (fun work => f work a t) (fun work => f' work b t')) :
    EndAlike S B w (fun work => (m work >>= f work) s) (fun work => (m' work >>= f' work) s') := by
  have hf' : ∀ w' b a t' t, w ≤ w' → A w' a b → S w' t t' → EndAlike (fun w t s => S w s t)
      (fun w d c => B w c d) w' (fun work => f' work b t') (fun work => f work a t) :=
    fun w' b a t' t hw hab ht => (hf w' a b t t' hw hab ht).flip
  exact ⟨hm.steady.bind (hm.steady_next hf), hm.steady'.bind (hm.flip.steady_next hf'),
    follows_bind hm hf, follows_bind hm.flip hf'⟩

end

section

variable {round : Nat → Eval (Option α)} {round' : Nat → Eval (Option β)} {s s' : State}

/-- Rounds that end alike in related states. -/
def Rounds (S : World → State → State → Prop) (A : World → α → β → Prop) (w : World)
    (round : Nat → Eval (Option α)) (round' : Nat → Eval (Option β)) : Prop :=
  ∀ w' t t', w ≤ w' → S w' t t' → EndAlike S (fun w => Option.Rel (A w)) w'
    (fun work => round work t) (fun work => round' work t')

theorem Rounds.later (h : Rounds S A w round round') (hw : w ≤ w') :
    Rounds S A w' round round' :=
  fun w₁ t t' hw₁ => h w₁ t t' (le_trans hw hw₁)

theorem Rounds.flip (h : Rounds S A w round round') :
    Rounds (fun w t s => S w s t) (fun w b a => A w a b) w round' round := by
  intro w' t' t hw ht
  refine (h w' t t' hw ht).flip.imp fun w b a hab => ?_
  cases hab with
  | some hab => exact .some hab
  | none => exact .none

theorem steady_iterate (h : Rounds S A w round round') (hs : S w s s') :
    Steady fun work => Eval.iterate round work s := by
  intro work work' hle hne
  dsimp only at hne ⊢
  induction work generalizing work' w s s' with
  | zero => exact absurd rfl hne
  | succ work ih =>
    obtain ⟨more, rfl⟩ : ∃ more, work' = more + 1 := ⟨work' - 1, by omega⟩
    have hround := h w s s' (le_refl w) hs
    rw [Eval.iterate] at hne ⊢
    rw [Eval.iterate]
    cases ho : round work s with
    | exhausted => rw [Eval.bind_of_exhausted ho] at hne; exact absurd rfl hne
    | failed e t =>
      have ho' : round more s = .failed e t :=
        hround.steady.eq (by omega) ho (Outcome.failed_ne_exhausted e t)
      rw [Eval.bind_of_failed ho, Eval.bind_of_failed ho']
    | done r t =>
      have ho' : round more s = .done r t :=
        hround.steady.eq (by omega) ho (Outcome.done_ne_exhausted r t)
      rw [Eval.bind_of_done ho] at hne ⊢
      rw [Eval.bind_of_done ho']
      cases r with
      | some a => rfl
      | none =>
        obtain ⟨o', w', hw, -, hrel⟩ := hround.there _ ⟨Outcome.done_ne_exhausted none t, work, ho⟩
        cases hrel with
        | done _ ht => exact ih (h.later hw) ht more (by omega) hne

private theorem follows_iterate (h : Rounds S A w round round') (hs : S w s s') :
    Follows S A w (fun work => Eval.iterate round work s)
      (fun work => Eval.iterate round' work s') := by
  rintro o ⟨hne, work, hwork⟩
  dsimp only at hwork
  subst hwork
  induction work generalizing w s s' with
  | zero => exact absurd rfl hne
  | succ work ih =>
    have hround := h w s s' (le_refl w) hs
    have hends {o : Outcome β} := ends_iterate (o := o) hround.steady' fun t' ht' => by
      obtain ⟨o', w', hw, -, hrel⟩ := hround.back _ ht'
      cases hrel with
      | done _ ht => exact steady_iterate (h.later hw).flip ht
    rw [Eval.iterate] at hne ⊢
    cases ho : round work s with
    | exhausted => rw [Eval.bind_of_exhausted ho] at hne; exact absurd rfl hne
    | failed e t =>
      obtain ⟨o', w', hw, he, hrel⟩ := hround.there _ ⟨Outcome.failed_ne_exhausted e t, work, ho⟩
      rw [Eval.bind_of_failed ho]
      cases hrel with
      | failed e ht => exact ⟨_, w', hw, hends.mpr (.inr ⟨_, _, rfl, he⟩), .failed e ht⟩
    | done r t =>
      obtain ⟨o', w', hw, hr, hrel⟩ := hround.there _ ⟨Outcome.done_ne_exhausted r t, work, ho⟩
      rw [Eval.bind_of_done ho] at hne ⊢
      cases hrel with
      | done hab ht =>
        cases hab with
        | some hab => exact ⟨_, w', hw, hends.mpr (.inl (.inl ⟨_, _, hr, rfl⟩)), .done hab ht⟩
        | none =>
          obtain ⟨o'', w'', hw', ho', hrel'⟩ := ih (h.later hw) ht hne
          exact ⟨o'', w'', le_trans hw hw', hends.mpr (.inl (.inr ⟨_, hr, ho'⟩)), hrel'⟩

/-- Loops end alike whose rounds do. -/
theorem iterate (h : Rounds S A w round round') (hs : S w s s') :
    EndAlike S A w (fun work => Eval.iterate round work s)
      (fun work => Eval.iterate round' work s') :=
  ⟨steady_iterate h hs, steady_iterate h.flip hs, follows_iterate h hs, follows_iterate h.flip hs⟩

end

end EndAlike

end

end Lox
