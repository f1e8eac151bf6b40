import Lox.Proofs.Command.Rekeyed
import Lox.Proofs.Parse.Keys
import Lox.Proofs.Resolution.Parsed
import Lox.Proofs.Tree.Load
import Lox.Proofs.Tree.Parsed

/-! A program runs from the text in which its tree is shown as it runs from its source, unless one
of its numbers is too large for a double. -/

namespace Lox.Command

/-- What is shown of a source text is read back as the program of that text. -/
theorem read_shown {source text shown : Text}
    (hshow : showTree source shown = ending .ok [.reported text])
    (hfinite : ∀ t ∈ (scan source).tokens, t.kind = .number →
      t.numberValue ≠ Number.infinity false) :
    ∃ q, parse? source = .ok q ∧ ∃ json, Json.read text = .ok json ∧
      Program.ofJson? (some json) = .ok (Program.map .ofPosition q) := by
  rw [showTree] at hshow
  split at hshow
  · cases hshow
  · rename_i q hparse
    cases hshow
    have hexpressible := each_expressibleAt_of_parse? hparse hfinite
    obtain ⟨-, rfl⟩ := parse?_eq_ok.mp hparse
    exact ⟨_, hparse, _, Json.read_writeIndented (Program.expressible_toJson hexpressible),
      Program.ofJson?_toJson (each_validAt_parse source)⟩

/-- A tree that is read runs as a program does that differs from it in nothing but its keys. -/
theorem runTree_of_read {text : Text} {json : Json} (hread : Json.read text = .ok json)
    {p : Program Node} (hjson : Program.ofJson? (some json) = .ok (Program.map Keyed.location p))
    {k b : Nat} (hkeys : Drawn k b (Program.notes p)) {host : Host} (hhost : host.Uniform)
    (work : Nat) (resolves : Bool) (filename : Text) :
    runTree host work resolves text filename = runProgram host work resolves p filename := by
  obtain ⟨read, hkeyed, hplaces⟩ := Program.exists_ofJsonKeyed? hjson firstKey
  obtain ⟨t, hleft, rfl⟩ := Program.exists_twin hplaces
  have hkeys' := Program.drawn_ofJsonKeyed? hkeyed
  rw [← hleft] at hkeys'
  rw [runTree, hread]
  dsimp only
  rw [hkeyed]
  dsimp only
  rw [← hleft]
  exact runProgram_twin hkeys' hkeys hhost work resolves filename

/-- A program runs from the text in which its tree is shown as it runs from its source: it comes to
the same end, or to none with the same work. The nodes are made in another order, and so they have
other keys. -/
theorem runTree_shown {host : Host} (hhost : host.Uniform) (work : Nat) (resolves : Bool)
    {source text shown : Text} (hshow : showTree source shown = ending .ok [.reported text])
    (hfinite : ∀ t ∈ (scan source).tokens, t.kind = .number →
      t.numberValue ≠ Number.infinity false) (filename : Text) :
    runTree host work resolves text filename = runSource host work resolves source filename := by
  obtain ⟨q, hparse, json, hread, hjson⟩ := read_shown hshow hfinite
  obtain ⟨p, hsource, hplaces⟩ := exists_parseKeyed?_of_parse? hparse firstKey
  rw [← hplaces] at hjson
  have hkeys := drawn_of_parseKeyed? hsource
  rw [runTree_of_read hread hjson hkeys hhost work resolves filename, runSource, hsource]

theorem runTree_shown_text :
    let source : Text := "print \"\t\" + \"é\" == 0.1;"
    ∃ text, showTree source "a.lox" = ending .ok [.reported text] ∧
      runTree (.standard (.stopped Number.zero)) 9 true text "b.lox" =
        runSource (.standard (.stopped Number.zero)) 9 true source "b.lox" := by
  intro source
  obtain ⟨q, hparse, -⟩ : ∃ q, parse? source = .ok q ∧ True :=
    exists_parse?_of_any (by decide +kernel)
  have hshow : showTree source "a.lox" = ending .ok
      [.reported (Program.toJson (Program.map .ofPosition q)).writeIndented] := by
    rw [showTree, hparse]
  exact ⟨_, hshow, runTree_shown (Host.uniform_standard _) _ _ hshow (by decide +kernel) "b.lox"⟩

/-- A number beyond the doubles is an infinity, for which the format has no text: the tree shows nil
in its place. -/
theorem runTree_shown_infinity :
    let source : Text := "print 1" ++ Number.zeros 309 ++ ";"
    ∃ text, showTree source "a.lox" = ending .ok [.reported text] ∧
      (runSource (.standard (.stopped Number.zero)) 9 true source "a.lox").map Ending.transcript =
        some [.printed "Infinity"] ∧
      (runTree (.standard (.stopped Number.zero)) 9 true text "a.lox").map Ending.transcript =
        some [.printed "nil"] := by
  intro source
  let keyed : Program Node :=
    [.print ⟨2, .ofPosition ⟨1, 1⟩⟩ (.literal ⟨1, .ofPosition ⟨1, 7⟩⟩ .nil)]
  let p : Program Location := Program.map Keyed.location keyed
  have hlocated := Location.expressible_ofPosition
  have hexpressible : Program.Each Mark.ExpressibleAt p :=
    ⟨⟨⟨hlocated _, trivial⟩, hlocated _, trivial⟩, trivial⟩
  have hvalid : Program.Each Mark.ValidAt p :=
    ⟨⟨⟨(hlocated _).valid, trivial⟩, (hlocated _).valid, trivial⟩, trivial⟩
  obtain ⟨q, hparse, htext⟩ : ∃ q, parse? source = .ok q ∧
      (Program.toJson (Program.map .ofPosition q)).writeIndented =
        (Program.toJson p).writeIndented := by
    apply exists_parse?_of_any
    rw [parse?, parse, parseWith, scan_eq]
    decide +kernel
  refine ⟨(Program.toJson p).writeIndented, by rw [showTree, hparse, ← htext], ?_, ?_⟩
  · rw [runSource, parseKeyed?, parseKeyed, parseWith, scan_eq]
    decide +kernel
  · have hread := Json.read_writeIndented (Program.expressible_toJson hexpressible)
    have hkeys : Drawn 1 3 (Program.notes keyed) := ⟨by decide, by decide, by decide⟩
    rw [runTree_of_read hread (Program.ofJson?_toJson hvalid) hkeys (Host.uniform_standard _)]
    decide +kernel

end Lox.Command
