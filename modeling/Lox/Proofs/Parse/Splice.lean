import Lox.Proofs.Parse.FollowProgram
import Lox.Proofs.Parse.ReadProgram
import Lox.Proofs.Parse.TakeProgram
import Lox.Proofs.Source.Splice

/-! A text without errors and another one on the lines below it are read one after the other. -/

namespace Lox

open Text

namespace Parse

open Grammar

/-- With a depth that is enough, the reading of a program never gives up. -/
theorem exists_program {depth : Nat} {c : Cursor Unit} (hdepth : 16 * c.rest.length + 13 ≤ depth) :
    ∃ (p : Program Position) (c' : Cursor Unit), program depth c = (some p, c') := by
  induction depth generalizing c with
  | zero => omega
  | succ depth ih =>
    have hend : atEnd c = (some c.rest.isEmpty, c) := rfl
    rw [program, bind_of_some hend]
    split
    · exact ⟨[], c, rfl⟩
    · rename_i hmore
      have hne : c.rest ≠ [] := fun h => hmore (by rw [h]; rfl)
      have hfollows := (followsPrograms (.same Unit) c.rest depth depth).declaration c.rest.length
        (by omega)
      obtain ⟨first, c', hfirst, -, -, -, hlength⟩ :=
        (hfollows c (List.Subset.refl _) (Nat.le_refl _)).recovered hne
      obtain ⟨rest, c'', hrest⟩ := ih (c := c') (by omega)
      rw [bind_of_some hfirst, bind_of_some hrest]
      exact ⟨_, c'', rfl⟩

/-- After declarations, the rest is read as it would be alone. -/
theorem program_append {p : Program Position} {ts : List Token}
    (h : Derives true (.declarations p) ts) {us : List Token} (hnext : NotNext .elseWord us)
    {stop : Position} {errors : List SourceError} {q : Program Position} {c : Cursor Unit}
    (hq : ∀ depth, 16 * us.length + 13 ≤ depth →
      program depth ⟨us, stop, errors, ()⟩ = (some q, c))
    {depth : Nat} (hdepth : 16 * (ts.length + us.length) + 13 ≤ depth) :
    program depth ⟨ts ++ us, stop, errors, ()⟩ = (some (p ++ q), c) := by
  induction p generalizing ts depth with
  | nil =>
    cases h
    exact hq depth (by simpa using hdepth)
  | cons s p ih =>
    cases h with
    | @moreDeclarations _ _ ts vs hs hp =>
      have hpos : 0 < ts.length := hs.length_pos rfl
      rw [List.length_append] at hdepth
      obtain ⟨depth, rfl⟩ : ∃ d, depth = d + 1 := ⟨depth - 1, by omega⟩
      have hmore : atEnd ⟨ts ++ (vs ++ us), stop, errors, ()⟩ =
          (some false, ⟨ts ++ (vs ++ us), stop, errors, ()⟩) := by
        simp [atEnd, List.length_pos_iff.mp hpos]
      have hfirst : Takes (recovering (declaration depth)) (some s) ts (vs ++ us) :=
        takes_recovering (reads_of_derives hs depth _ (by omega) (notNext_declarations hp hnext))
      have hrest : program depth ⟨vs ++ us, stop, errors, ()⟩ = (some (p ++ q), c) :=
        ih hp (by omega)
      rw [program, List.append_assoc, bind_of_some hmore, if_neg Bool.false_ne_true,
        bind_of_some (hfirst stop errors), bind_of_some hrest]
      rfl

/-- The tokens of a program come first, and then those of any text that starts without `else`. -/
theorem parseTokens_append {p : Program Position} {ts : List Token} (h : IsNearestProgram p ts)
    {us : List Token} (hnext : NotNext .elseWord us) (f : Position → Position) (stop : Position) :
    parseTokens (ts ++ us.map (Token.move f)) (f stop) =
      ⟨p ++ Program.map f (parseTokens us stop).program,
        (parseTokens us stop).errors.map (SourceError.move f)⟩ := by
  have hdepth : 16 * us.length + 13 ≤ parseDepth us := by
    unfold parseDepth
    omega
  obtain ⟨q, c, hq⟩ := exists_program (c := ⟨us, stop, [], ()⟩) hdepth
  have hmoved (depth : Nat) (hdepth' : 16 * (us.map (Token.move f)).length + 13 ≤ depth) :
      program depth ⟨us.map (Token.move f), f stop, [], ()⟩ =
        (some (Program.map f q), c.move (.moved f)) := by
    rw [List.length_map] at hdepth'
    have hfollows : FollowsStmts (.moved f) us us.length (program (parseDepth us))
        (program depth) :=
      program_follows (Nat.le_min.mpr ⟨hdepth, hdepth'⟩)
    have hat := hfollows ⟨us, stop, [], ()⟩ (List.Subset.refl us) (Nat.le_refl _)
    exact hat.moved.trans (by rw [hq]; rfl)
  have hnext' : NotNext .elseWord (us.map (Token.move f)) := by
    cases us with
    | nil => exact hnext
    | cons u us =>
      rintro _ ⟨⟩
      exact hnext u rfl
  have henough : 16 * (ts.length + (us.map (Token.move f)).length) + 13 ≤
      parseDepth (ts ++ us.map (Token.move f)) := by
    rw [parseDepth, List.length_append]
    omega
  have hread : program (parseDepth (ts ++ us.map (Token.move f)))
      ⟨ts ++ us.map (Token.move f), f stop, [], ()⟩ =
        (some (p ++ Program.map f q), c.move (.moved f)) :=
    program_append h hnext' hmoved henough
  rw [parseTokens, parseTokensWith]
  dsimp only
  rw [hread, parseTokens_program, parseTokens_errors, hq]
  rfl

end Parse

/-- A text without errors, and below it another one that does not start with `else`: the statements
of the first come before those of the second, and the errors are those of the second. What comes
from the second stands as many lines further down as the first has. -/
theorem parse_append_newline {source below : Text} (h : (parse source).errors = [])
    (hnext : Parse.NotNext .elseWord (scan below).tokens) :
    let move := Position.down (source.count newline + 1)
    parse (source ++ newline :: below) =
      ⟨(parse source).program ++ Program.map move (parse below).program,
        (parse below).errors.map (SourceError.move move)⟩ := by
  intro move
  rw [parse_errors] at h
  obtain ⟨hscan, hparse⟩ := List.append_eq_nil_iff.mp h
  have hprogram := Parse.isNearestProgram_of_parseTokens hparse
  rw [parse_program, parse_program, parse_errors below, parse_eq, scan_append_newline hscan]
  dsimp only
  rw [Parse.parseTokens_append hprogram hnext, List.map_append]

/-- An `if` at the end of the first text ends there, and a text over two lines counts both. -/
theorem parse_append_newline_if :
    let source : Text := "if (a) print \"b\nc\"; // d"
    let below : Text := "print ;\n@e"
    (parse source).errors = [] ∧ Parse.NotNext .elseWord (scan below).tokens ∧
      (parse (source ++ newline :: below)).errors =
        [⟨.unexpectedUnit (unit '@'), ⟨4, 1⟩⟩, ⟨.unmet (some ";") .expression, ⟨3, 7⟩⟩,
          ⟨.unmet none .semicolonAfterExpression, ⟨4, 3⟩⟩] := by
  intro source below
  have hsource : (parse source).errors = [] := by decide +kernel
  have hnext : Parse.NotNext .elseWord (scan below).tokens := by
    intro t ht hkind
    have hfirst : (scan below).tokens.head?.map Token.kind = some .printWord := by decide +kernel
    rw [ht] at hfirst
    cases hfirst.symm.trans (congrArg some hkind)
  refine ⟨hsource, hnext, ?_⟩
  rw [parse_append_newline hsource hnext]
  decide +kernel

end Lox
