import Lox.Command.Basic
import Lox.Proofs.Resolution.Loop
import Lox.Proofs.Run.Renumbered
import Lox.Proofs.Run.SelfContained

/-! Loops with clauses, run as they are written. The trees that the parser makes of them run in the
same way, but for the empty frames of the blocks around the body and the increment. -/

namespace Lox

namespace Context

def test (ctx : Context) (env : Environment) (condition : Option (Expr Node)) (work : Nat) :
    Eval Bool :=
  match condition with
  | none => return true
  | some c => do
    let v ← ctx.evaluate work env c
    return v.truthy

/-- The body, and then the increment unless the body returned. -/
def pass (ctx : Context) (env : Environment) (l : ForLoop Node) (work : Nat) :
    Eval Completion := do
  match ← ctx.execute work env l.body with
  | .returned v => return .returned v
  | .normal =>
    match l.increment with
    | none => return .normal
    | some e =>
      let _ ← ctx.evaluate work env e
      return .normal

/-- The condition and, where it holds, a pass; with a result if the loop ends there. -/
def round (ctx : Context) (env : Environment) (l : ForLoop Node) (work : Nat) :
    Eval (Option Completion) := do
  if ← ctx.test env l.condition work then
    match ← ctx.pass env l work with
    | .returned v => return some (.returned v)
    | .normal => return none
  else return some .normal

/-- Runs a loop as it is written: in one scope for all of it if it has an initializer, which runs
there once, and then round by round. -/
def executeFor (ctx : Context) (work : Nat) (env : Environment) (l : ForLoop Node) :
    Eval Completion :=
  match l.initializer with
  | none => Eval.iterate (ctx.round env l) work
  | some first => do
    let scope ← Eval.openFrame env
    match ← ctx.execute work scope first with
    | .returned v => return .returned v
    | .normal => Eval.iterate (ctx.round scope l) work

variable {ctx : Context} {env : Environment} {s : State} {work : Nat}

theorem pass_eq_execute (first : Option (Stmt Node)) (c : Option (Expr Node)) (body : Stmt Node) :
    ctx.pass env ⟨first, c, none, body⟩ work = ctx.execute work env body := by
  funext s
  unfold pass
  cases ho : ctx.execute work env body s with
  | exhausted => exact Eval.bind_of_exhausted ho _
  | failed e t => exact Eval.bind_of_failed ho _
  | done c t =>
    rw [Eval.bind_of_done ho]
    cases c <;> rfl

/-- The plain loop is the one whose only clause is the condition. -/
theorem executeLoop_eq_iterate (c : Expr Node) (body : Stmt Node) :
    ctx.executeLoop work env c body =
      Eval.iterate (ctx.round env ⟨none, some c, none, body⟩) work := by
  induction work with
  | zero => rfl
  | succ work ih =>
    funext s
    rw [executeLoop, Eval.iterate, ← ih, round, pass_eq_execute, test]
    simp only [bind, Eval.bind, pure, Eval.pure]
    cases ctx.evaluate work env c s with
    | exhausted => rfl
    | failed e t => rfl
    | done v t =>
      dsimp only
      split
      · rw [Eval.bind]
        cases ctx.execute work env body t with
        | exhausted => rfl
        | failed e u => rfl
        | done r u => cases r <;> rfl
      · rfl

private theorem ends_whileLoop {n : Node} {c : Expr Node} {body : Stmt Node}
    {o : Outcome Completion} : Ends (fun work => ctx.execute work env (.whileLoop n c body) s) o ↔
      Ends (fun work => Eval.iterate (ctx.round env ⟨none, some c, none, body⟩) work s) o := by
  simp only [← executeLoop_eq_iterate]
  exact ends_succ rfl

end Context

namespace Renumbering

variable {ctx : Context} {w : Renumbering} {env env' : Environment} {s s' : State}

variable (htable : ctx.table = ∅) (hhost : ctx.host.Blind)

include htable hhost

private theorem test_alike {c : Option (Expr Node)} {test : Expr Node} (h : ForLoop.Tests c test)
    (henv : w.EnvAlike env env') (hs : w.StateAlike s s') :
    EndAlike StateAlike (fun _ b b' => b = b') w (fun work => ctx.test env c work s)
      (fun work => ctx.test env' (some test) work s') := by
  cases h with
  | absent =>
    exact (EndAlike.done rfl hs).congr
      ((ctx.steady_evaluate env' _ s').bind fun _ _ _ => steady_const _) fun o => ends_succ rfl
  | present =>
    refine (evaluate_alike htable hhost henv hs test).bind fun w' v v' t t' hw hv ht => ?_
    rw [hv.truthy_eq]
    exact .done rfl ht

/-- A pass over a loop is what the tree repeats. -/
theorem pass_alike {l : ForLoop Node} {round : Stmt Node}
    (h : ForLoop.Repeats l.body l.increment round) (hplain : l.body.Plain)
    (henv : w.EnvAlike env env') (hs : w.StateAlike s s') :
    EndAlike StateAlike CompletionAlike w (fun work => ctx.pass env l work s)
      (fun work => ctx.execute work env' round s') := by
  obtain ⟨first, c, increment, body⟩ := l
  cases h with
  | plain =>
    simp only [Context.pass_eq_execute]
    exact execute_alike htable hhost (henv.admits hplain) hs
  | @followed n m e =>
    -- the block opens a frame that stays empty, as the body declares nothing
    have hw := w.le_openExtra s'.store.frames.size
    have hinner : (w.openExtra s'.store.frames.size).EnvAlike env (s'.inner env') :=
      henv.openExtra _
    have hbody := execute_alike htable hhost (hinner.admits hplain) (hs.openExtra env')
    have hboth : EndAlike StateAlike CompletionAlike (w.openExtra s'.store.frames.size)
        (fun work => ctx.pass env ⟨first, c, some e, body⟩ work s)
        (fun work => (ctx.execute work (s'.inner env') body >>=
          ctx.afterwards (s'.inner env') [.expression m e] work) (s'.openFrame env')) := by
      refine hbody.bind fun w' r r' t t' hw' hr ht => ?_
      cases hr with
      | returned hv => exact .done (.returned hv) ht
      | normal =>
        have hincrement : EndAlike StateAlike CompletionAlike w'
            (fun work => (do
              let _ ← ctx.evaluate work env e
              return .normal : Eval Completion) t)
            (fun work => (do
              let _ ← ctx.evaluate work (s'.inner env') e
              return .normal : Eval Completion) t') :=
          (evaluate_alike htable hhost (hinner.mono hw') ht e).bind
            fun w'' v v' u u' hw'' hv hu => .done .normal hu
        exact hincrement.congr (ctx.steady_executeAll _ _ _)
          fun o => Context.ends_singleton.trans (ends_succ rfl)
    refine (hboth.later hw).congr (ctx.steady_execute _ _ _) fun o => ?_
    exact Context.ends_block.trans Context.ends_cons

private theorem rounds_alike {l : ForLoop Node} {test : Expr Node} {round : Stmt Node}
    (htest : ForLoop.Tests l.condition test) (hround : ForLoop.Repeats l.body l.increment round)
    (hplain : l.body.Plain) (henv : w.EnvAlike env env') :
    EndAlike.Rounds StateAlike CompletionAlike w (ctx.round env l)
      (ctx.round env' ⟨none, some test, none, round⟩) := by
  intro w₁ t t' hw₁ ht
  have henv₁ := henv.mono hw₁
  refine (test_alike htable hhost htest henv₁ ht).bind fun w₂ b b' u u' hw₂ hb hu => ?_
  subst hb
  cases b with
  | false => exact .done (.some .normal) hu
  | true =>
    simp only [if_true, Context.pass_eq_execute]
    refine (pass_alike htable hhost hround hplain (henv₁.mono hw₂) hu).bind
      fun w₃ r r' v v' hw₃ hr hv => ?_
    cases hr with
    | returned ha => exact .done (.some (.returned ha)) hv
    | normal => exact .done .none hv

/-- The rounds of a loop are those of the plain loop in its tree. -/
theorem iterate_alike {l : ForLoop Node} {n : Node} {test : Expr Node} {round : Stmt Node}
    (htest : ForLoop.Tests l.condition test) (hround : ForLoop.Repeats l.body l.increment round)
    (hplain : l.body.Plain) (henv : w.EnvAlike env env') (hs : w.StateAlike s s') :
    EndAlike StateAlike CompletionAlike w (fun work => Eval.iterate (ctx.round env l) work s)
      (fun work => ctx.execute work env' (.whileLoop n test round) s') :=
  (EndAlike.iterate (rounds_alike htable hhost htest hround hplain henv) hs).congr
    (ctx.steady_execute _ _ _) fun _ => Context.ends_whileLoop

/-- A loop ends as its tree does. -/
theorem executeFor_alike {l : ForLoop Node} {tree : Stmt Node} (h : l.Desugars tree)
    (hplain : l.body.Plain) (henv : w.EnvAlike env env') (hs : w.StateAlike s s') :
    EndAlike StateAlike CompletionAlike w (fun work => ctx.executeFor work env l s)
      (fun work => ctx.execute work env' tree s') := by
  cases h with
  | whileLoop htest hround => exact iterate_alike htable hhost htest hround hplain henv hs
  | @block n m first c test increment body round htest hround =>
    have hscope := hs.inner henv
    have hfirst := execute_alike htable hhost (hscope.admits [first]) (hs.openFrame env env')
    have hboth : EndAlike StateAlike CompletionAlike (w.openFrame s'.store.frames.size)
        (fun work => ctx.executeFor work env ⟨some first, c, increment, body⟩ s)
        (fun work => (ctx.execute work (s'.inner env') first >>=
          ctx.afterwards (s'.inner env') [.whileLoop m test round] work) (s'.openFrame env')) := by
      refine hfirst.bind fun w' r r' t t' hw hr ht => ?_
      cases hr with
      | returned hv => exact .done (.returned hv) ht
      | normal =>
        exact (iterate_alike htable hhost htest hround hplain (hscope.envAlike.mono hw) ht).congr
          (ctx.steady_executeAll _ _ _) fun o => Context.ends_singleton
    refine (hboth.later (w.le_openFrame _)).congr (ctx.steady_execute _ _ _) fun o => ?_
    exact Context.ends_block.trans Context.ends_cons

end Renumbering

private theorem Command.closed_start : Command.start.2.Closed := by
  intro i v hv c hc
  cases i with
  | zero =>
    cases List.mem_singleton.mp hv
    cases hc
  | succ i => cases hv

open Renumbering in
/-- A `for` statement means the loop that is written there: its tree ends as the loop does that is
run directly, with the same output and the same effect on the frames that existed before. In a
program the accesses of its condition and its increment to the variable of its initializer are bound
to the one scope of the loop. -/
theorem forLoop_means {nearest isOpen : Bool} {tree : Stmt Position} {word : Token}
    {ts : List Token} (h : Grammar.Derives nearest (.statement isOpen tree) (word :: ts))
    (hword : word.kind = .forWord) {stmt : Stmt Node}
    (hstmt : stmt.map Keyed.location = tree.map .ofPosition) :
    ∃ (written : ForLoop Position) (l : ForLoop Node), written.Written nearest (word :: ts) ∧
      l.map Keyed.location = written.map .ofPosition ∧ l.Desugars stmt ∧
      (∀ (ctx : Context) (env : Environment) (s : State), ctx.table = ∅ → ctx.host.Blind →
        s.Closed → (∀ i ∈ env, i < s.store.frames.size) →
        EndAlike StateAlike CompletionAlike (.same s.store.frames.size)
          (fun work => ctx.executeFor work env l s) (fun work => ctx.execute work env stmt s)) ∧
      ∀ (k : Nat) (source : Text) (p : Program Node) (known : List Name) (reportUndefined : Bool),
        parseKeyed? k source = .ok p →
        let table := (resolve known reportUndefined p).table
        ∀ scopes n x e, Inside p scopes stmt → l.initializer = some (.varDecl n x e) →
          ∃ m loop, stmt = .block m [.varDecl n x e, loop] ∧
            ∀ a ∈ Expr.accesses? l.condition ++ Expr.accesses? l.increment, a.name = x →
              a.ResolvesTo p table
                (⟨[], [.varDecl n x e, loop], [.varDecl n x e]⟩ :: scopes) := by
  obtain ⟨written, place, hwritten, rfl⟩ := h.exists_forLoop hword
  rw [Stmt.map_forLoop, ForLoop.getD_condition] at hstmt
  obtain ⟨l, hdesugars, hl⟩ := ForLoop.Desugars.of_map (l := written.map Location.ofPosition) hstmt
  have hplain : l.body.Plain := by
    have hbody : l.body.map Keyed.location = written.body.map .ofPosition :=
      congrArg ForLoop.body hl
    rw [← Stmt.plain_map (f := Keyed.location), hbody, Stmt.plain_map]
    exact hwritten.plain
  refine ⟨written, l, hwritten, hl, hdesugars, fun ctx env s htable hhost hs henv => ?_,
    fun k source p known reportUndefined hparse scopes n x e hinside hfirst => ?_⟩
  · exact executeFor_alike htable hhost hdesugars hplain (envAlike_same henv) (stateAlike_same hs)
  · exact hdesugars.resolves hplain (nodup_keys_of_parseKeyed? hparse)
      (scoped_of_parseKeyed? hparse)
      hinside hfirst

/-- The body declares a variable of the name of the loop's, which the condition does not mean. -/
theorem forLoop_means_shadowed : ∃ stmt l,
    parseKeyed? firstKey "for (var i = 0; i < 2; i = i + 1) { var i = 7; print i; }" =
        .ok [stmt] ∧
      let ctx : Context := ⟨Command.start.1, ∅, .standard (.stopped Number.zero)⟩
      EndAlike Renumbering.StateAlike Renumbering.CompletionAlike (.same 1)
        (fun work => ctx.executeFor work ctx.globals l Command.start.2)
        (fun work => ctx.execute work ctx.globals stmt Command.start.2) ∧
      ∃ m first loop, stmt = .block m [first, loop] ∧
        ∃ a ∈ Expr.accesses? l.condition, a.name = ("i" : Name) ∧
          a.ResolvesTo [stmt] (resolve ["clock"] true [stmt]).table
            [⟨[], [first, loop], [first]⟩] := by
  obtain ⟨p, hparse, hlength, ⟨m, body⟩, hblock, hdeclared, hfunctions, hreads⟩ : ∃ p,
      parseKeyed? firstKey "for (var i = 0; i < 2; i = i + 1) { var i = 7; print i; }" = .ok p ∧
      p.length = 1 ∧ ∃ b ∈ p.filterMap fun s => (Code.stmt s).block?,
        List.map Stmt.declared? b.2 = [some ("i" : Name), none] ∧
          List.map Stmt.declaredFunction? b.2 = [none, none] ∧
          ((b.2.drop 1).flatMap Stmt.ownAccesses).map Access.name = ["i"] :=
    exists_parseKeyed?_of_any (by decide +kernel)
  obtain ⟨stmt, rfl⟩ := List.length_eq_one_iff.mp hlength
  have hstmt : stmt = .block m body := by
    obtain ⟨s, hs, hcode⟩ := List.mem_filterMap.mp hblock
    cases List.mem_singleton.mp hs
    exact Code.stmt.inj (Code.eq_of_block? hcode)
  obtain ⟨q, hplain, hplaces⟩ := exists_parse?_of_parseKeyed? hparse
  obtain ⟨tree, rfl⟩ : ∃ tree, q = [tree] := by
    cases q with
    | nil => cases hplaces
    | cons tree rest =>
      cases rest with
      | nil => exact ⟨tree, rfl⟩
      | cons => cases (List.cons.inj hplaces).2
  obtain ⟨isOpen, word, ts, hword, hderives⟩ :=
    Grammar.exists_derives_of_parse? hplain (by decide +kernel)
  obtain ⟨written, l, -, -, hdesugars, hruns, hresolves⟩ :=
    forLoop_means hderives hword (List.cons.inj hplaces).1
  have hsize (i : Nat) (hi : i ∈ Command.start.1) : i < Command.start.2.store.frames.size := by
    cases List.mem_singleton.mp hi
    exact Nat.zero_lt_one
  refine ⟨stmt, l, hparse,
    hruns _ _ _ rfl (Host.blind_standard _) Command.closed_start hsize, ?_⟩
  have htop : Inside [stmt] [] stmt := .top (show [stmt] = [] ++ stmt :: [] from rfl)
  have hbound (n : Node) (x : Name) (e : Option (Expr Node)) :=
    hresolves firstKey _ _ ["clock"] true hparse [] n x e htop
  rw [hstmt] at hdesugars
  cases hdesugars with
  | @block _ j first c test increment inner round htest hrepeats =>
    cases first with
    | varDecl n x e =>
      cases hdeclared
      obtain ⟨_, _, hshape, haccess⟩ := hbound n "i" e rfl
      cases hstmt.symm.trans hshape
      obtain ⟨a, ha, hname⟩ : ∃ a ∈ test.accesses, a.name = ("i" : Name) := by
        refine List.mem_map.mp ?_
        change List.map Access.name (test.accesses ++ []) = ["i"] at hreads
        rw [List.append_nil] at hreads
        rw [hreads]
        exact List.mem_singleton_self _
      cases htest with
      | absent => exact absurd ha List.not_mem_nil
      | present =>
        exact ⟨m, _, _, hstmt, a, ha, hname, haccess a (List.mem_append_left _ ha) hname⟩
    | funDecl => cases hfunctions
    | _ => cases hdeclared

end Lox
