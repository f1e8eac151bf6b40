import Lox.Command.Basic
import Lox.Proofs.Resolution.Table
import Lox.Proofs.Run.Preserve

/-! The layers of a program and of its runs coincide: code that is nested in so many blocks and
functions runs exactly so many frames above the globals. -/

namespace Lox

theorem Scope.state?_of_depth? {x : Name} {scopes : List Scope} {d : Nat}
    (h : Scope.depth? x scopes = some d) :
    ∃ s, scopes[d]? = some s ∧ s.state? x = some .defined := by
  induction scopes generalizing d with
  | nil => cases h
  | cons s outer ih =>
    rw [Scope.depth?] at h
    split at h
    · cases h
      exact ⟨s, rfl, by assumption⟩
    · obtain ⟨d', hd', rfl⟩ := Option.map_eq_some_iff.mp h
      exact ih hd'

def Task.code? : Task → Option (Environment × Code)
  | .evaluate env e => some (env, .expr e)
  | .execute env s => some (env, .stmt s)
  | _ => none

namespace Course

variable {r : Course}

def firstWorld (r : Course) : World :=
  ⟨List.replicate r.start.store.frames.size none, r.start.store⟩

theorem holds_firstWorld : r.invariant.holds r.firstWorld r.start := by
  refine ⟨rfl, ?_, fun i o ho x _ => ?_, fun i x a ha c hc => ?_⟩
  · simp [firstWorld]
  · obtain ⟨_, hnone⟩ := List.mem_replicate.mp (List.mem_of_getElem? ho)
    cases hnone
  · subst hc
    exact .guest ⟨i, x, ha⟩ (.inl rfl) (List.Subset.refl _)

/-- The program starts at its top level, in the globals. -/
theorem fits_root (hglobals : ∀ i ∈ r.ctx.globals, i < r.start.store.frames.size) :
    r.invariant.fits r.firstWorld r.root := by
  refine ⟨.program, .top, List.Subset.refl _, ⟨.top .refl, fun i hi => ?_, trivial⟩,
    fun _ _ names outer hnames => by cases hnames⟩
  have hsize : i < r.start.store.frames.size := hglobals i (List.mem_of_mem_head? hi)
  simp [firstWorld, hsize]

theorem Visits.fits {v : Visit} (hv : r.Visits v) (hhost : r.ctx.host.Faithful)
    (hglobals : ∀ i ∈ r.ctx.globals, i < r.start.store.frames.size) :
    ∃ w, r.firstWorld ≤ w ∧ r.invariant.holds w v.state ∧ r.FitsTask w v v.task :=
  (preserves hhost).reaches holds_firstWorld (fits_root hglobals) hv

/-- What reads or writes a variable stands at the place of the access. -/
theorem FitsTask.access {w : World} {v : Visit} {task : Task} (h : r.FitsTask w v task)
    {env : Environment} {n : Node} {x : Name} (hx : task.access? = some (env, n, x)) :
    ∃ e, (Code.expr e).access? = some (n, x) ∧ r.FitsCode w env v fun p => [⟨.expr e, p⟩] := by
  cases task with
  | read =>
    cases hx
    exact ⟨_, rfl, h⟩
  | write =>
    cases hx
    obtain ⟨-, e, he⟩ := h
    exact ⟨_, rfl, he⟩
  | _ => cases hx

private theorem Visits.size_le {v : Visit} (hv : r.Visits v) (hhost : r.ctx.host.Faithful)
    (hglobals : ∀ i ∈ r.ctx.globals, i < r.start.store.frames.size) :
    r.start.store.frames.size ≤ v.state.store.frames.size := by
  obtain ⟨w, hw, ⟨hstore, hsound⟩, -⟩ := hv.fits hhost hglobals
  have hlength := hw.1.length_le
  rw [hsound.size, hstore] at hlength
  simpa [firstWorld] using hlength

/-- The frame has been opened inside the environment for an activation of the block, or for a call
of a function that the declaration has made there. -/
def Opened (r : Course) (env : Environment) (i : Nat) : Stmt Node → Prop
  | .block n body => ∃ u, r.Visits u ∧ u.task = .execute env (.block n body) ∧
    i = u.state.store.frames.size
  | .funDecl n x params body => ∃ u w args location, r.Visits u ∧
    u.task = .execute env (.funDecl n x params body) ∧ r.Visits w ∧
    w.task = .call (.function (u.state.closure x params body env)) args location ∧
    args.length = params.length ∧ i = w.state.store.frames.size
  | _ => False

theorem Active.opened {owners : List (Stmt Node)} {env : Environment} {v : Visit}
    (h : r.Active owners env v) {d : Nat} {o : Stmt Node} (ho : owners[d]? = some o) :
    ∃ i outer, env.drop d = i :: outer ∧ r.Opened outer i o := by
  induction h generalizing d with
  | top => cases ho
  | @block _ env u n body _ hu htask _ ih =>
    cases d with
    | zero =>
      cases ho
      exact ⟨_, env, rfl, u, hu.visits, htask, rfl⟩
    | succ d => exact ih ho
  | @call _ env u n x params body w args location _ hu htask hw hcall hlength _ ih =>
    cases d with
    | zero =>
      cases ho
      exact ⟨_, env, rfl, u, w, args, location, hu.visits, htask, hw, hcall, hlength, rfl⟩
    | succ d => exact ih ho

private theorem Opened.size_le {env : Environment} {i : Nat} {o : Stmt Node} (h : r.Opened env i o)
    (hhost : r.ctx.host.Faithful)
    (hglobals : ∀ i ∈ r.ctx.globals, i < r.start.store.frames.size) :
    r.start.store.frames.size ≤ i := by
  cases o with
  | block n body =>
    obtain ⟨u, hu, -, rfl⟩ := h
    exact hu.size_le hhost hglobals
  | funDecl n x params body =>
    obtain ⟨u, w, args, location, -, -, hw, -, -, rfl⟩ := h
    exact hw.size_le hhost hglobals
  | _ => exact h.elim

/-- Without functions from before, the run comes only to code of the program. -/
theorem Visits.site {v : Visit} (hv : r.Visits v) (hhost : r.ctx.host.Faithful)
    (hglobals : ∀ i ∈ r.ctx.globals, i < r.start.store.frames.size)
    (hguests : ∀ c, ¬ r.Guest c) {env : Environment} {code : Code}
    (hcode : v.task.code? = some (env, code)) :
    ∃ site ∈ r.sites .program, site.code = code ∧ r.Active site.place.owners env v := by
  obtain ⟨w, -, -, hfits⟩ := hv.fits hhost hglobals
  have hplace {code' : Place → List Site} (h : r.FitsCode w env v code')
      (hmem : ∀ p, ⟨code, p⟩ ∈ code' p) :
      ∃ site ∈ r.sites .program, site.code = code ∧ r.Active site.place.owners env v := by
    obtain ⟨home, p, hsites, henv, -⟩ := h
    cases home with
    | guest c => exact absurd henv.1 (hguests c)
    | program => exact ⟨⟨code, p⟩, hsites (hmem p), rfl, henv.1⟩
  cases htask : v.task with
  | evaluate env' e =>
    rw [htask] at hcode hfits
    cases hcode
    exact hplace hfits fun p => e.site_mem
  | execute env' s =>
    rw [htask] at hcode hfits
    cases hcode
    exact hplace hfits fun p => s.site_mem
  | _ => rw [htask] at hcode; cases hcode

/-- In a run of a program whose nodes have keys of their own, code runs in an environment that has
one frame on top of the globals for each block and function around it, opened for an activation of
that block or function. With the table of the resolver, an access that is bound so many scopes out
finds the frame so many steps out opened for the block or function whose scope has the name. -/
theorem layers_coincide (hkeys : (Program.keys r.program).Nodup) (hhost : r.ctx.host.Faithful)
    (hglobals : ∀ i ∈ r.ctx.globals, i < r.start.store.frames.size)
    (hguests : ∀ c, ¬ r.Guest c) {v : Visit} (hv : r.Visits v) {env : Environment} {code : Code}
    (hcode : v.task.code? = some (env, code)) :
    (∃ site ∈ Program.sites .top r.program, site.code = code) ∧
    ∀ site ∈ Program.sites .top r.program, site.code = code →
      env.length = site.place.owners.length + r.ctx.globals.length ∧
      env.drop site.place.owners.length = r.ctx.globals ∧
      r.Active site.place.owners env v ∧
      ∀ known reportUndefined, r.ctx.table = (resolve known reportUndefined r.program).table →
        ∀ n x d, code.access? = some (n, x) → r.ctx.table[n.key]? = some (.atDepth d) →
          ∃ owner scope i outer, site.place.owners[d]? = some owner ∧
            site.place.scopes[d]? = some scope ∧ scope.state? x = some .defined ∧
            env.drop d = i :: outer ∧ i ∉ r.ctx.globals ∧ r.Opened outer i owner := by
  obtain ⟨found, hfound, hsame, hactive⟩ := hv.site hhost hglobals hguests hcode
  refine ⟨⟨found, hfound, hsame⟩, fun site hsite hsitecode => ?_⟩
  have heq : site = found := by
    refine Site.eq_of_key (Program.nodup_sites .top hkeys) hsite hfound ?_
    unfold Site.key
    rw [hsitecode, hsame]
  rw [← heq] at hactive
  refine ⟨hactive.length, hactive.drop, hactive, fun known reportUndefined htable n x d hx hd => ?_⟩
  have haccess : site.access? =
      some (.access n x (Scope.depth? x site.place.scopes)) :=
    Site.access?_eq_some.mpr ⟨by rw [hsitecode, hx], rfl⟩
  rw [htable, resolve_table hkeys hsite haccess] at hd
  have hdepth : Scope.depth? x site.place.scopes = some d := by
    cases h : Scope.depth? x site.place.scopes with
    | none => rw [h] at hd; cases hd
    | some d' => rw [h] at hd; cases hd; rfl
  obtain ⟨scope, hscope, hdefined⟩ := Scope.state?_of_depth? hdepth
  have hd' : d < site.place.owners.length := by
    rw [← (Site.lengths hsite).1]
    exact (List.getElem?_eq_some_iff.mp hscope).1
  have howner : site.place.owners[d]? = some site.place.owners[d] := List.getElem?_eq_getElem hd'
  obtain ⟨i, outer, hdrop, hopened⟩ := hactive.opened howner
  refine ⟨_, scope, i, outer, howner, hscope, hdefined, hdrop, fun hi => ?_, hopened⟩
  have hold := hglobals i hi
  have hnew := hopened.size_le hhost hglobals
  omega

end Course

/-- Defining native functions adds no others. -/
theorem Store.native_of_defineNatives {natives : List Native} {env : Environment} {s : Store}
    (hs : ∀ i x a, (s.frame i).lookup x = some a → ∃ f, a = .native f) {i : Nat} {x : Name}
    {a : Value} (h : ((s.defineNatives env natives).frame i).lookup x = some a) :
    ∃ f, a = .native f := by
  induction natives generalizing s with
  | nil => exact hs i x a h
  | cons f natives ih =>
    refine ih (fun j y b hb => ?_) h
    cases env with
    | nil => exact hs j y b hb
    | cons k env =>
      change ((s.setIn k f.name (.native f)).frame j).lookup y = some b at hb
      by_cases hk : k < s.frames.size
      · rw [frame_setIn _ _ _ _ _ hk] at hb
        split at hb
        · rw [Frame.lookup_set] at hb
          split at hb
          · cases hb
            exact ⟨f, rfl⟩
          · exact hs k y b hb
        · exact hs j y b hb
      · rw [World.setIn_of_size_le _ (Nat.le_of_not_lt hk)] at hb
        exact hs j y b hb

theorem Store.size_defineNatives (s : Store) (env : Environment) (natives : List Native) :
    (s.defineNatives env natives).frames.size = s.frames.size := by
  induction natives generalizing s with
  | nil => rfl
  | cons f natives ih =>
    refine (ih _).trans ?_
    cases env with
    | nil => rfl
    | cons i env => exact size_setIn s i f.name (.native f)

theorem Store.lt_size_of_mem_root {natives : List Native} {i : Nat}
    (h : i ∈ (Store.empty.root natives).1) : i < (Store.empty.root natives).2.frames.size := by
  rw [List.mem_singleton.mp h]
  exact (size_defineNatives _ _ natives).symm ▸ Nat.one_pos

/-- A fresh interpreter has no functions but the native ones. -/
theorem Store.native_of_root {natives : List Native} {i : Nat} {x : Name} {a : Value}
    (h : ((Store.empty.root natives).2.frame i).lookup x = some a) : ∃ f, a = .native f := by
  refine native_of_defineNatives (fun j y b hb => ?_) h
  change (((Store.empty.child []).2.frame j).lookup y) = some b at hb
  rw [frame_child] at hb
  simp [empty, frame] at hb

/-- No function is there before the first run of an interpreter. -/
theorem Course.not_guest {r : Course} {natives : List Native}
    (hstart : r.start.store = (Store.empty.root natives).2) (c : Closure) : ¬ r.Guest c := by
  rintro ⟨i, x, h⟩
  rw [hstart] at h
  obtain ⟨f, hf⟩ := Store.native_of_root h
  cases hf

theorem Course.layers_coincide_block :
    let use : Stmt Node := .expression ⟨3, .unknown⟩ (.reference ⟨2, .unknown⟩ "a")
    let p : Program Node := [.block ⟨4, .unknown⟩ [.varDecl ⟨1, .unknown⟩ "a" none, use]]
    let r : Course :=
      ⟨⟨Command.start.1, (resolve [] true p).table, .standard (.stopped Number.zero)⟩, p, 6,
      Command.start.2⟩
    ∃ v env, r.Visits v ∧ v.task.code? = some (env, .expr (.reference ⟨2, .unknown⟩ "a")) ∧
      ∃ site ∈ Program.sites .top p, site.code = .expr (.reference ⟨2, .unknown⟩ "a") ∧
        env.length = site.place.owners.length + r.ctx.globals.length ∧
        ∃ owner i outer, site.place.owners[0]? = some owner ∧ env = i :: outer ∧
          i ∉ r.ctx.globals ∧ r.Opened outer i owner := by
  intro use p r
  let s : State := (r.start.openFrame [0]).define [1, 0] "a" .nil
  let body : Program Node := [.varDecl ⟨1, .unknown⟩ "a" none, use]
  have hblock : r.Visits ⟨5, .execute [0] (.block ⟨4, .unknown⟩ body), r.start⟩ :=
    .tail .refl (.intro .now)
  have hbody : r.Visits ⟨4, .executeAll [1, 0] body, r.start.openFrame [0]⟩ :=
    hblock.tail (.intro .now)
  have hrest : r.Visits ⟨3, .executeAll [1, 0] [use], s⟩ := by
    refine hbody.tail (.intro ?_)
    have hdeclared : r.ctx.run 3 (.execute [1, 0] (.varDecl ⟨1, .unknown⟩ "a" none))
        (r.start.openFrame [0]) = .done (.completion .normal) s := rfl
    exact .later hdeclared .now
  have huse : r.Visits ⟨2, .execute [1, 0] use, s⟩ := hrest.tail (.intro .now)
  have hv : r.Visits ⟨1, .evaluate [1, 0] (.reference ⟨2, .unknown⟩ "a"), s⟩ :=
    huse.tail (.intro .now)
  have hguests : ∀ c, ¬ r.Guest c := Course.not_guest rfl
  have htable : r.ctx.table[2]? = some (.atDepth 0) := by decide
  obtain ⟨⟨site, hsite, hcode⟩, hall⟩ := layers_coincide (r := r) (by decide)
    (Host.faithful_standard _) (by decide) hguests hv rfl
  obtain ⟨hlength, -, -, haccess⟩ := hall site hsite hcode
  obtain ⟨owner, scope, i, outer, howner, -, -, hdrop, hi, hopened⟩ :=
    haccess [] true rfl _ _ _ rfl htable
  exact ⟨_, [1, 0], hv, rfl, site, hsite, hcode, hlength, owner, i, outer, howner, hdrop, hi,
    hopened⟩

end Lox
