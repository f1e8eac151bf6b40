import Lox.Command.Basic
import Lox.Proofs.Resolution.Rekeyed
import Lox.Proofs.Run.Rekeyed
import Lox.Proofs.Run.Steps

/-! Commands on programs that differ in nothing but the keys of their nodes. -/

namespace Lox

private theorem Rekeying.stateAlike_natives {g : Rekeying} {s s' : State} (h : g.StateAlike s s')
    (env : Environment) (natives : List Native) :
    g.StateAlike { s with store := s.store.defineNatives env natives }
      { s' with store := s'.store.defineNatives env natives } := by
  induction natives generalizing s s' with
  | nil => exact h
  | cons f rest ih =>
    have hf : g.ValueAlike (.native f) (.native f) := .same nofun
    exact ih (h.define hf env f.name)

namespace Command

/-- Before the first program there are no functions whose nodes have keys. -/
theorem stateAlike_start (g : Rekeying) : g.StateAlike start.2 start.2 := by
  have hempty : g.StateAlike State.empty State.empty := ⟨rfl, fun _ => .nil, rfl, rfl, rfl⟩
  exact Rekeying.stateAlike_natives (hempty.openFrame []) (State.empty.inner []) Native.standard

/-- A program runs in the same way whatever keys its nodes have, if no two have the same. -/
theorem runProgram_twin {t : Program Twin} {k k' b b' : Nat}
    (hkeys : Drawn k b (Program.notes (Program.map Twin.left t)))
    (hkeys' : Drawn k' b' (Program.notes (Program.map Twin.right t))) {host : Host}
    (hhost : host.Uniform) (work : Nat) (resolves : Bool) (filename : Text) :
    runProgram host work resolves (Program.map Twin.left t) filename =
      runProgram host work resolves (Program.map Twin.right t) filename := by
  let resolved (f : Twin → Node) : Resolved :=
    if resolves then resolve (start.2.store.names start.1) true (Program.map f t) else .nothing
  have hdiagnostics : (resolved Twin.right).diagnostics = (resolved Twin.left).diagnostics := by
    cases resolves with
    | false => rfl
    | true => exact resolve_twin hkeys.nodup
  let g : Rekeying := ⟨(resolved Twin.left).table, b, (resolved Twin.right).table, b'⟩
  have hagrees : g.Agrees (Program.accesses t) := by
    intro a ha
    obtain ⟨hkey, hkey'⟩ := Program.twin_keys ha
    refine ⟨(hkeys.keys_range hkey).2, (hkeys'.keys_range hkey').2, ?_⟩
    cases resolves with
    | false => exact Std.TreeMap.getElem?_emptyc.trans Std.TreeMap.getElem?_emptyc.symm
    | true => exact table_twin hkeys.nodup hkeys'.nodup ha
  have htask : g.coupling.tasks (.executeAll start.1 (Program.map Twin.left t))
      (.executeAll start.1 (Program.map Twin.right t)) := .executeAll hagrees
  have hrun := (Rekeying.coupling_kept start.1 hhost).run work htask (stateAlike_start g)
  have hprogram (f : Twin → Node) : runProgram host work resolves (Program.map f t) filename =
      if (resolved f).hasErrors then
        some (refusal ("Resolve errors in " ++ filename ++ ":")
          ((resolved f).diagnostics.map fun d => "  " ++ d.line))
      else finished (Context.interpret ⟨start.1, (resolved f).table, host⟩ work (Program.map f t)
        start.2) := rfl
  rw [hprogram, hprogram]
  unfold Resolved.hasErrors
  rw [hdiagnostics]
  split
  · rfl
  · rw [Context.interpret_eq_run, Context.interpret_eq_run]
    generalize Context.run _ work _ start.2 = o at hrun ⊢
    generalize Context.run _ work _ start.2 = o' at hrun ⊢
    cases hrun with
    | done ha hs => simp only [Outcome.map, finished, hs.output]
    | failed e hs => simp only [Outcome.map, finished, hs.output]
    | exhausted => rfl

end Command

end Lox
