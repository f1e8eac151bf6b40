import Lox.Proofs.Run.Undefined
import Lox.Proofs.Run.Yields

/-! The names of the globals. However a run ends, they are those from before, in the same order,
followed by those that the top-level declarations added which have completed. -/

namespace Lox

/-- The names of a list that are not among the old ones, each at its first place. -/
def newNames (old names : List Name) : List Name :=
  (names.filter fun x => ! old.contains x).eraseDups

theorem newNames_cons (old : List Name) (x : Name) (names : List Name) :
    newNames old (x :: names) =
      if x ∈ old then newNames old names else x :: newNames (old ++ [x]) names := by
  unfold newNames
  by_cases hx : x ∈ old
  · simp [hx]
  · have hfilter : (names.filter fun y => ! old.contains y).filter (fun y => ! y == x) =
        names.filter fun y => ! (old ++ [x]).contains y := by
      rw [List.filter_filter]
      refine List.filter_congr fun y _ => ?_
      by_cases hy : y = x <;> simp [hy]
    rw [if_neg hx, List.filter_cons_of_pos (by simpa using hx), List.eraseDups_cons, hfilter]

theorem newNames_append (old xs ys : List Name) : newNames old (xs ++ ys) =
    newNames old xs ++ newNames (old ++ newNames old xs) ys := by
  induction xs generalizing old with
  | nil => simp [newNames]
  | cons x xs ih =>
    rw [List.cons_append, newNames_cons, newNames_cons]
    split
    · exact ih old
    · rw [ih (old ++ [x])]
      simp only [List.cons_append, List.append_assoc, List.nil_append]

theorem mem_newNames {old names : List Name} {x : Name} :
    x ∈ newNames old names ↔ x ∈ names ∧ x ∉ old := by
  simp [newNames]

theorem nodup_newNames (old names : List Name) : (newNames old names).Nodup := by
  induction names generalizing old with
  | nil => exact List.nodup_nil
  | cons x names ih =>
    rw [newNames_cons]
    split
    · exact ih old
    · refine List.nodup_cons.mpr ⟨fun hx => ?_, ih (old ++ [x])⟩
      exact (mem_newNames.mp hx).2 (List.mem_append_right old (List.mem_singleton_self x))

theorem Store.names_of_head? {s : Store} {env : Environment} {i : Nat} (h : env.head? = some i) :
    s.names env = (s.frame i).names := by
  cases env with
  | nil => cases h
  | cons j env =>
    cases h
    rfl

/-- A definition adds its name at the end, unless it is there. -/
theorem Store.names_define {s : Store} {env : Environment} {i : Nat} (h : env.head? = some i)
    (hi : i < s.frames.size) (x : Name) (v : Value) : (s.define env x v).names env =
      if x ∈ s.names env then s.names env else s.names env ++ [x] := by
  cases env with
  | nil => cases h
  | cons j env =>
    cases h
    change ((s.setIn i x v).frame i).names = _
    rw [frame_setIn s i i x v hi, if_pos rfl, Frame.names_set]
    rfl

namespace Context

variable {ctx : Context} {env : Environment} {i : Nat} {s t : State} {task : Task}
  {o : Outcome Answer}

theorem Yields.grows (h : ctx.Yields task s o) (ht : o.state? = some t) :
    s.store.Grows task.declares t.store := by
  obtain ⟨-, work, rfl⟩ := h
  exact run_grows ht

/-- A task that declares nothing in a frame keeps its names, whichever way it ends. -/
theorem Yields.names_eq (h : ctx.Yields task s o) (ht : o.state? = some t)
    (henv : env.head? = some i) (hi : i < s.store.frames.size)
    (hsilent : ∀ x, ¬ task.declares i x) : t.store.names env = s.store.names env := by
  rw [Store.names_of_head? henv, Store.names_of_head? henv]
  exact (h.grows ht).names_eq hi hsilent

theorem silent_of_not_declaration {stmt : Stmt Node} (hscoped : stmt.Scoped)
    (hnone : stmt.declared? = none) (i : Nat) (x : Name) :
    ¬ Task.declares (.execute env stmt) i x := by
  rintro ⟨-, hx⟩
  rw [stmt.ownNames_eq hscoped, hnone] at hx
  cases hx

theorem names_declaration {stmt : Stmt Node} {x : Name} (hx : stmt.declared? = some x)
    (h : ctx.Yields (.execute env stmt) s o) (ht : o.state? = some t) (henv : env.head? = some i)
    (hi : i < s.store.frames.size) :
    (o = .done (.completion .normal) t ∧ t.store.names env =
      if x ∈ s.store.names env then s.store.names env else s.store.names env ++ [x]) ∨
    (∃ e, o = .failed e t) ∧ t.store.names env = s.store.names env := by
  have hplan := yields_iff.mp h
  cases stmt with
  | funDecl n y params body =>
    cases hx
    cases Plan.yields_done.mp hplan
    cases ht
    exact .inl ⟨rfl, Store.names_define henv hi x _⟩
  | varDecl n y e =>
    cases hx
    cases e with
    | none =>
      cases Plan.yields_done.mp hplan
      cases ht
      exact .inl ⟨rfl, Store.names_define henv hi x .nil⟩
    | some e =>
      rcases Plan.yields_sub.mp hplan with ⟨a, u, he, hnext⟩ | ⟨error, u, rfl, he⟩
      · have hkept : u.store.names env = s.store.names env :=
          he.names_eq rfl henv hi fun _ => id
        have hu : i < u.store.frames.size := Nat.lt_of_lt_of_le hi (he.grows rfl).size
        cases a with
        | value v =>
          cases Plan.yields_done.mp hnext
          cases ht
          rw [← hkept]
          exact .inl ⟨rfl, Store.names_define henv hu x v⟩
        | _ => exact absurd (Plan.yields_finish.mp hnext).2.symm (Plan.yields_finish.mp hnext).1
      · cases ht
        exact .inr ⟨⟨error, rfl⟩, he.names_eq rfl henv hi fun _ => id⟩
  | _ => cases hx

theorem names_of_stops {stmt : Stmt Node} (hscoped : stmt.Scoped)
    (h : ctx.Yields (.execute env stmt) s o) (hstops : o.Stops) (ht : o.state? = some t)
    (henv : env.head? = some i) (hi : i < s.store.frames.size) :
    t.store.names env = s.store.names env := by
  cases hx : stmt.declared? with
  | none => exact h.names_eq ht henv hi (silent_of_not_declaration hscoped hx i)
  | some x =>
    rcases names_declaration hx h ht henv hi with ⟨rfl, -⟩ | ⟨-, hkept⟩
    · exact hstops.elim
    · exact hkept

theorem names_of_completed {stmts : Program Node} (hscoped : Program.Scoped stmts)
    (h : ctx.Yields (.executeAll env stmts) s (.done (.completion .normal) t))
    (henv : env.head? = some i) (hi : i < s.store.frames.size) : t.store.names env =
      s.store.names env ++ newNames (s.store.names env) (Program.declared stmts) := by
  induction stmts generalizing s with
  | nil =>
    cases yields_nil.mp h
    exact (List.append_nil _).symm
  | cons stmt rest ih =>
    rcases yields_cons.mp h with ⟨u, hstmt, hrest⟩ | ⟨hstops, -⟩
    · have hu : i < u.store.frames.size := Nat.lt_of_lt_of_le hi (hstmt.grows rfl).size
      rw [ih hscoped.2 hrest hu]
      cases hx : stmt.declared? with
      | none =>
        rw [hstmt.names_eq rfl henv hi (silent_of_not_declaration hscoped.1 hx i),
          Program.declared, Program.declared, List.filterMap_cons_none hx]
      | some x =>
        have hnames := (names_declaration hx hstmt rfl henv hi).resolve_right
          fun ⟨⟨_, hfailed⟩, _⟩ => by cases hfailed
        rw [hnames.2, Program.declared, Program.declared, List.filterMap_cons_some hx,
          newNames_cons]
        split
        · rfl
        · rw [List.append_assoc]
          rfl
    · exact hstops.elim

/-- Statements complete one after the other up to the end, or up to the one that stops them. -/
theorem yields_split {stmts : Program Node} (h : ctx.Yields (.executeAll env stmts) s o) :
    ∃ completed rest u, stmts = completed ++ rest ∧
      ctx.Yields (.executeAll env completed) s (.done (.completion .normal) u) ∧
      (rest = [] ∧ o = .done (.completion .normal) u ∨ ∃ stmt later, rest = stmt :: later ∧
        ctx.Yields (.execute env stmt) u o ∧ o.Stops) := by
  induction stmts generalizing s with
  | nil => exact ⟨[], [], s, rfl, yields_nil.mpr rfl, .inl ⟨rfl, yields_nil.mp h⟩⟩
  | cons stmt rest ih =>
    rcases yields_cons.mp h with ⟨t, hstmt, hrest⟩ | ⟨hstops, hstmt⟩
    · obtain ⟨completed, rest, u, rfl, hcompleted, hend⟩ := ih hrest
      exact ⟨stmt :: completed, rest, u, rfl, yields_cons.mpr (.inl ⟨t, hstmt, hcompleted⟩), hend⟩
    · exact ⟨[], stmt :: rest, s, rfl, yields_nil.mpr rfl, .inr ⟨stmt, rest, rfl, hstmt, hstops⟩⟩

end Context

namespace Course

variable {r : Course} {g : Nat} {v : Visit}

/-- The task runs the program from some statement on. -/
def RunsRest (r : Course) (task : Task) : Prop :=
  ∃ front rest, r.program = front ++ rest ∧ task = .executeAll r.ctx.globals rest

/-- The task executes a declaration of the program itself. -/
def Declares (r : Course) (task : Task) : Prop :=
  ∃ stmt ∈ r.program, stmt.declared?.isSome ∧ task = .execute r.ctx.globals stmt

/-- What a list of statements of the program comes to: one of them, or the statements after it. -/
theorem silent_or_top_of_asks (hscoped : Program.Scoped r.program) {front rest : Program Node}
    (hrest : r.program = front ++ rest) {recur : Task → Eval Answer} {s s' : State} {task : Task}
    (hasks : (Context.planStmts r.ctx.globals s rest).Asks recur task s') :
    (∀ x, ¬ task.declares g x) ∨ r.RunsRest task ∨ r.Declares task := by
  cases rest with
  | nil => cases hasks
  | cons stmt rest =>
    have hmem : stmt ∈ r.program := hrest ▸ List.mem_append_right front List.mem_cons_self
    cases hasks with
    | now =>
      cases hx : stmt.declared? with
      | none =>
        rw [hrest] at hscoped
        have hstmt : stmt.Scoped := (Program.Scoped.append.mp hscoped).2.1
        exact .inl (Context.silent_of_not_declaration hstmt hx g)
      | some x => exact .inr (.inr ⟨stmt, hmem, by rw [hx]; rfl, rfl⟩)
    | @later _ _ _ a _ _ _ _ hasks =>
      cases a with
      | completion c =>
        cases c with
        | normal =>
          cases hasks with
          | now => exact .inr (.inl ⟨front ++ [stmt], rest, by rw [hrest, List.append_cons], rfl⟩)
          | later _ hasks => cases hasks
        | returned v => cases hasks
      | _ => cases hasks

private theorem silent_of_declaration {stmt : Stmt Node} (hx : stmt.declared?.isSome)
    {recur : Task → Eval Answer} {env : Environment} {s s' : State} {task : Task}
    (hasks : (Context.planStmt env s stmt).Asks recur task s') (x : Name) :
    ¬ task.declares g x := by
  cases stmt with
  | funDecl n y params body => cases hasks
  | varDecl n y e =>
    cases e with
    | none => cases hasks
    | some e =>
      cases hasks with
      | now => exact id
      | @later _ _ _ a _ _ _ _ hasks => cases a <;> cases hasks
  | _ => cases hx

/-- Only the run of the program itself, and its declarations, can add globals. -/
theorem Visits.silent_or_top (hv : r.Visits v) (hscoped : Program.Scoped r.program)
    (hframe : g < r.start.store.frames.size) :
    (∀ x, ¬ v.task.declares g x) ∨ r.RunsRest v.task ∨ r.Declares v.task := by
  induction hv with
  | refl => exact .inr (.inl ⟨[], r.program, rfl, rfl⟩)
  | @tail u v hreach hcall ih =>
    have hsize : g < u.state.store.frames.size :=
      Nat.lt_of_lt_of_le hframe (Context.Reaches.grows hreach).1.size
    obtain ⟨hasks⟩ := hcall
    dsimp only at ih ⊢
    rcases ih with hsilent | ⟨front, rest, hrest, rfl⟩ | ⟨stmt, -, hx, rfl⟩
    · have hinner := ((r.ctx.outlined_plan _ _).grows_asks (fun _ _ _ => Context.run_grows) hasks).2
      exact .inl fun x hx => hsilent x (hinner g x hsize hx)
    · exact silent_or_top_of_asks hscoped hrest hasks
    · exact .inl (silent_of_declaration hx hasks)

/-- However a run of a parsed program ends, some statements at its front have completed, and the run
has ended with them or with the next one, which returned or failed. The names of the globals are
then those from before, in the same order, followed by the new names of the declarations among the
completed statements, each once, in the order of their first execution. No other task in the course
of the run adds, removes or moves a global, whichever way it ends. -/
theorem globals_named {k : Nat} {source : Text} (hparse : parseKeyed? k source = .ok r.program)
    (hglobals : r.ctx.globals.head? = some g) (hframe : g < r.start.store.frames.size) :
    (∀ t, (r.ctx.interpret r.work r.program r.start).state? = some t →
      ∃ completed rest u, r.program = completed ++ rest ∧
        r.ctx.Yields (.executeAll r.ctx.globals completed) r.start
          (.done (.completion .normal) u) ∧
        (rest = [] ∧ r.ctx.interpret r.work r.program r.start = .done () u ∨
          ∃ stmt later o, rest = stmt :: later ∧ r.ctx.Yields (.execute r.ctx.globals stmt) u o ∧
            o.Stops ∧ r.ctx.interpret r.work r.program r.start = o.map fun _ => ()) ∧
        t.store.names r.ctx.globals = r.start.store.names r.ctx.globals ++
          newNames (r.start.store.names r.ctx.globals) (Program.declared completed)) ∧
    ∀ v t, r.Visits v → (r.ctx.outcome v).state? = some t →
      t.store.names r.ctx.globals = v.state.store.names r.ctx.globals ∨ r.RunsRest v.task ∨
        r.Declares v.task ∧ r.ctx.outcome v = .done (.completion .normal) t := by
  have hscoped : Program.Scoped r.program := scoped_of_parseKeyed? hparse
  constructor
  · intro t ht
    rw [Context.interpret_eq_run] at ht ⊢
    generalize ho : r.ctx.run r.work (.executeAll r.ctx.globals r.program) r.start = o at ht ⊢
    have hyields : r.ctx.Yields (.executeAll r.ctx.globals r.program) r.start o := by
      refine ⟨fun hexhausted => ?_, r.work, ho⟩
      rw [hexhausted] at ht
      cases ht
    have hstate : o.state? = some t := by
      cases o with
      | exhausted => cases ht
      | _ => exact ht
    obtain ⟨completed, rest, u, happend, hcompleted, hend⟩ := Context.yields_split hyields
    rw [happend] at hscoped
    have hnames := Context.names_of_completed (Program.Scoped.append.mp hscoped).1 hcompleted
      hglobals hframe
    refine ⟨completed, rest, u, happend, hcompleted, ?_, ?_⟩
    · rcases hend with ⟨hrest, rfl⟩ | ⟨stmt, later, hrest, hstmt, hstops⟩
      · exact .inl ⟨hrest, rfl⟩
      · exact .inr ⟨stmt, later, o, hrest, hstmt, hstops, rfl⟩
    · rw [← hnames]
      rcases hend with ⟨-, rfl⟩ | ⟨stmt, later, rfl, hstmt, hstops⟩
      · cases hstate
        rfl
      · have hu : g < u.store.frames.size := Nat.lt_of_lt_of_le hframe (hcompleted.grows rfl).size
        exact Context.names_of_stops (Program.Scoped.append.mp hscoped).2.1 hstmt hstops hstate
          hglobals hu
  · intro v t hv ht
    have hsize : g < v.state.store.frames.size :=
      Nat.lt_of_lt_of_le hframe (Context.Reaches.grows hv).1.size
    have hyields : r.ctx.Yields v.task v.state (r.ctx.outcome v) := by
      refine ⟨fun hexhausted => ?_, v.work, rfl⟩
      rw [hexhausted] at ht
      cases ht
    rcases hv.silent_or_top hscoped hframe with hsilent | hrest | hdeclares
    · exact .inl (hyields.names_eq ht hglobals hsize hsilent)
    · exact .inr (.inl hrest)
    · obtain ⟨stmt, hmem, hsome, htask⟩ := hdeclares
      obtain ⟨x, hx⟩ := Option.isSome_iff_exists.mp hsome
      rw [htask] at hyields
      rcases Context.names_declaration hx hyields ht hglobals hsize with ⟨ho, -⟩ | ⟨-, hkept⟩
      · exact .inr (.inr ⟨⟨stmt, hmem, hsome, htask⟩, ho⟩)
      · exact .inl hkept

/-- A run that fails has added the globals that were declared before the failing statement. -/
theorem globals_named_failed :
    let source : Text :=
      "var b; \x7b var c = b; b = c; \x7d fun a(b) \x7b var d; \x7d a(b); var b; var e = -a; var f;"
    ∃ p, parseKeyed? firstKey source = .ok p ∧
      let r : Course :=
        ⟨⟨Command.start.1, (resolve ["clock"] true p).table, .standard (.stopped Number.zero)⟩,
        p, 16, Command.start.2⟩
      ∃ e t completed rest, r.ctx.interpret r.work r.program r.start = .failed e t ∧
        r.program = completed ++ rest ∧ rest ≠ [] ∧
        newNames ["clock"] (Program.declared completed) = ["b", "a"] := by
  intro source
  let course (p : Program Node) : Course :=
    ⟨⟨Command.start.1, (resolve ["clock"] true p).table, .standard (.stopped Number.zero)⟩, p, 16,
      Command.start.2⟩
  let run (p : Program Node) : Outcome Unit :=
    (course p).ctx.interpret (course p).work (course p).program (course p).start
  obtain ⟨p, hparse, hfault, hafter⟩ : ∃ p, parseKeyed? firstKey source = .ok p ∧
      (run p).fault? = some (.unsupportedOperator "-Function") ∧
      (run p).state?.map (fun t => t.store.names Command.start.1) =
        some (["clock", "b", "a"] : List Name) :=
    exists_parseKeyed?_of_any (by decide +kernel)
  refine ⟨p, hparse, ?_⟩
  intro r
  obtain ⟨l, t, ht⟩ := Outcome.fault?_eq_some.mp hfault
  have hframe : 0 < r.start.store.frames.size := Store.lt_size_of_mem_root List.mem_cons_self
  obtain ⟨hrun, -⟩ := globals_named (r := r) (g := 0) hparse rfl hframe
  obtain ⟨completed, rest, u, happend, -, hend, hnames⟩ := hrun t (congrArg Outcome.state? ht)
  refine ⟨_, t, completed, rest, ht, happend, ?_, ?_⟩
  · rintro rfl
    rcases hend with ⟨-, hdone⟩ | ⟨stmt, later, o, hrest, -⟩
    · rw [show r.ctx.interpret r.work r.program r.start = _ from ht] at hdone
      cases hdone
    · cases hrest
  · rw [ht] at hafter
    have hlist : [("clock" : Name)] ++ _ = [("clock" : Name)] ++ [("b" : Name), "a"] :=
      hnames.symm.trans (Option.some.inj hafter)
    exact List.append_cancel_left hlist

end Course

end Lox
