import Lox.Command.Basic
import Lox.Proofs.Resolution.Clean
import Lox.Proofs.Resolution.Parsed
import Lox.Proofs.Resolution.Split
import Lox.Proofs.Run.Endings
import Lox.Proofs.Run.ReturnFree

/-! Programs that are never cut short. In a program of which the resolver reports nothing no
statement of the top level returns, so that only an error keeps a statement from running. -/

namespace Lox

namespace Context

/-- The statements of the top level complete one after the other, and lead from one state to the
other. -/
inductive Completes (ctx : Context) : Program Node → State → State → Prop where
  | nil {s} : Completes ctx [] s s
  | cons {stmt rest s u t} :
      Ends (fun work => ctx.execute work ctx.globals stmt s) (.done .normal u) →
      Completes ctx rest u t → Completes ctx (stmt :: rest) s t

variable {ctx : Context} {p : Program Node} {stmt : Stmt Node} {env : Environment} {s t : State}

theorem completes_iff : ctx.Completes p s t ↔
    ctx.Yields (.executeAll ctx.globals p) s (.done (.completion .normal) t) := by
  constructor
  · intro h
    induction h with
    | nil => exact yields_nil.mpr rfl
    | cons hstmt _ ih => exact yields_cons.mpr (.inl ⟨_, ends_execute.mp hstmt, ih⟩)
  · intro h
    induction p generalizing s with
    | nil =>
      cases yields_nil.mp h
      exact .nil
    | cons stmt rest ih =>
      rcases yields_cons.mp h with ⟨u, hstmt, hrest⟩ | ⟨hstops, -⟩
      · exact .cons (ends_execute.mpr hstmt) (ih hrest)
      · exact hstops.elim

/-- Statements of the top level that fail have completed up to the one that fails. -/
theorem yields_failed_iff {e : RuntimeError} :
    ctx.Yields (.executeAll ctx.globals p) s (.failed e t) ↔
      ∃ front stmt later u, p = front ++ stmt :: later ∧ ctx.Completes front s u ∧
        Ends (fun work => ctx.execute work ctx.globals stmt u) (.failed e t) := by
  constructor
  · intro h
    induction p generalizing s with
    | nil => cases yields_nil.mp h
    | cons stmt rest ih =>
      rcases yields_cons.mp h with ⟨u, hstmt, hrest⟩ | ⟨-, hstmt⟩
      · obtain ⟨front, failing, later, u', rfl, hfront, hfailing⟩ := ih hrest
        exact ⟨stmt :: front, failing, later, u', rfl, .cons (ends_execute.mpr hstmt) hfront,
          hfailing⟩
      · exact ⟨[], stmt, rest, s, rfl, .nil, ends_execute.mpr hstmt⟩
  · rintro ⟨front, stmt, later, u, rfl, hfront, hstmt⟩
    refine yields_append.mpr (.inl ⟨u, completes_iff.mp hfront, ?_⟩)
    exact yields_cons.mpr (.inr ⟨trivial, ends_execute.mp hstmt⟩)

/-- A statement of a program of which no return is reported does not return, wherever it runs. -/
theorem execute_ne_returned (hreturn : ∀ l, .fault .topLevelReturn l ∉
    (Program.findings false [] p).1) (hstmt : stmt ∈ p) {work : Nat} {v : Value} :
    ctx.execute work env stmt s ≠ .done (.returned v) t := by
  intro ho
  have hrun : ctx.run work (.execute env stmt) s = .done (.completion (.returned v)) t := by
    rw [run, ho]
    rfl
  have hfree : Task.ReturnFree (.execute env stmt) := by
    obtain ⟨front, later, rfl⟩ := List.append_of_mem hstmt
    refine ⟨[], fun l hl => hreturn l ?_⟩
    rw [Program.findings_append]
    exact List.mem_append_right _ (List.mem_append_left _ hl)
  cases completes hrun hfree

end Context

namespace Command

def resolved (p : Program Node) : Resolved := resolve (start.2.store.names start.1) true p

variable {host : Host} {work : Nat} {p : Program Node} {filename : Text} {e : Ending}

def context (host : Host) (p : Program Node) : Context := ⟨start.1, (resolved p).table, host⟩

private theorem code_of_faulty (h : (resolved p).diagnostics ≠ [])
    (he : runProgram host work true p filename = some e) : e.code ≠ 0 := by
  have herrors : (resolved p).hasErrors := by simpa [Resolved.hasErrors] using h
  have hrefused : runProgram host work true p filename = some (refusal _ _) := if_pos herrors
  rw [hrefused] at he
  cases he
  exact (by decide : ExitCode.dataError.number ≠ 0)

theorem runProgram_clean (h : (resolved p).diagnostics = []) :
    runProgram host work true p filename =
      match (context host p).interpret work p start.2 with
      | .done _ s => some (ending .ok (s.output.toList.map .printed))
      | .failed e s =>
        some (ending .software (s.output.toList.map .printed ++ [.complained e.message]))
      | .exhausted => none := by
  have herrors : ¬ (resolved p).hasErrors := by simp [Resolved.hasErrors, h]
  exact if_neg herrors

/-- A program of which nothing is reported ends well just if its statements complete. -/
theorem ends_done_iff (h : (resolved p).diagnostics = []) (t : State) :
    Ends (fun work => (context host p).interpret work p start.2) (.done () t) ↔
      (context host p).Completes p start.2 t :=
  (Context.ends_interpret_done (no_fault_of_diagnostics h _)).trans Context.completes_iff.symm

private theorem code_eq_zero_iff (he : runProgram host work true p filename = some e) : e.code = 0 ↔
    (resolved p).diagnostics = [] ∧ ∃ t, (context host p).Completes p start.2 t := by
  by_cases h : (resolved p).diagnostics = []
  · rw [runProgram_clean h] at he
    cases ho : (context host p).interpret work p start.2 with
    | done a t =>
      rw [ho] at he
      cases he
      exact iff_of_true rfl
        ⟨h, t, (ends_done_iff h t).mp ⟨Outcome.done_ne_exhausted a t, work, ho⟩⟩
    | failed error t =>
      rw [ho] at he
      cases he
      refine iff_of_false (by decide : ExitCode.software.number ≠ 0) ?_
      rintro ⟨-, u, hu⟩
      have hfailed : Ends (fun work => (context host p).interpret work p start.2)
          (.failed error t) := ⟨Outcome.failed_ne_exhausted error t, work, ho⟩
      cases (Context.steady_interpret _ _).unique hfailed ((ends_done_iff h u).mpr hu)
    | exhausted =>
      rw [ho] at he
      cases he
  · exact iff_of_false (code_of_faulty h he) fun hwhole => h hwhole.1

private theorem exists_ending (h : (resolved p).diagnostics = []) {t : State}
    (ht : (context host p).Completes p start.2 t) (filename : Text) :
    ∃ work e, runProgram host work true p filename = some e := by
  obtain ⟨-, work, hwork⟩ := (ends_done_iff h t).mpr ht
  refine ⟨work, ending .ok (t.output.toList.map .printed), ?_⟩
  dsimp only at hwork
  rw [runProgram_clean h, hwork]

/-- A program of which the resolver reports nothing is never cut short: none of its statements
returns, whatever it runs in, so that they all complete one after the other, or complete up to one
that fails. A command that resolves its program succeeds just if nothing is reported and all
statements complete. -/
theorem runs_whole (p : Program Node) :
    (∀ (known : List Name) (reportUndefined : Bool),
      (resolve known reportUndefined p).diagnostics = [] → ∀ (ctx : Context) (s : State),
        (∀ stmt ∈ p, ∀ work env u v t, ctx.execute work env stmt u ≠ .done (.returned v) t) ∧
        (∀ t, Ends (fun work => ctx.interpret work p s) (.done () t) ↔ ctx.Completes p s t) ∧
        ∀ e t, Ends (fun work => ctx.interpret work p s) (.failed e t) ↔
          ∃ front stmt later u, p = front ++ stmt :: later ∧ ctx.Completes front s u ∧
            Ends (fun work => ctx.execute work ctx.globals stmt u) (.failed e t)) ∧
    ∀ (host : Host) (filename : Text),
      let whole := (resolved p).diagnostics = [] ∧
        ∃ t, (context host p).Completes p start.2 t
      (∀ work e, runProgram host work true p filename = some e → (e.code = 0 ↔ whole)) ∧
        (whole → ∃ work e, runProgram host work true p filename = some e) := by
  constructor
  · intro known reportUndefined hclean ctx s
    have hreturn (l : Location) : .fault .topLevelReturn l ∉ (Program.findings false [] p).1 :=
      no_fault_of_diagnostics hclean _ l
    refine ⟨fun stmt hstmt work env u v t => Context.execute_ne_returned hreturn hstmt, ?_, ?_⟩
    · exact fun t => (Context.ends_interpret_done hreturn).trans Context.completes_iff.symm
    · exact fun e t => Context.ends_interpret_failed.trans Context.yields_failed_iff
  · intro host filename whole
    exact ⟨fun work e he => code_eq_zero_iff he, fun ⟨h, t, ht⟩ => exists_ending h ht filename⟩

theorem runs_whole_function :
    let source : Text := "fun f() { for (;;) { if (f) { return 1; } } } f(); print f();"
    ∃ p t, parseKeyed? firstKey source = .ok p ∧
      (∀ stmt ∈ p, ∀ work env u v t,
        (context (.standard (.stopped Number.zero)) p).execute work env stmt u ≠
          .done (.returned v) t) ∧
      (context (.standard (.stopped Number.zero)) p).Completes p start.2 t := by
  intro source
  obtain ⟨p, hparse, hclean, hcode⟩ : ∃ p, parseKeyed? firstKey source = .ok p ∧
      (resolved p).diagnostics = [] ∧
      (runProgram (.standard (.stopped Number.zero)) 99 true p "a.lox").map Ending.code = some 0 :=
    exists_parseKeyed?_of_any (by decide +kernel)
  obtain ⟨e, he, hzero⟩ := Option.map_eq_some_iff.mp hcode
  have hwhole := runs_whole p
  obtain ⟨-, t, ht⟩ := ((hwhole.2 _ "a.lox").1 99 e he).mp hzero
  exact ⟨p, t, hparse, (hwhole.1 _ true hclean _ start.2).1, ht⟩

end Command

end Lox
