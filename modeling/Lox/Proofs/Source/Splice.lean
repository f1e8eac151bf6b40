import Lox.Proofs.Source.Move
import Lox.Proofs.Source.Scanner

/-! A text with a new line after it is cut where the text alone is, unless it leaves a quote open.
What stands on the lines below is cut as a text of its own. -/

namespace Lox

open Text

namespace Fragment

/-- A text with a new line after it is cut where the text alone is. -/
theorem allFrom_append_newline {p : Position} {t : Text}
    (h : ∀ f ∈ allFrom p t, f.kind ≠ .unterminated) (s : Text) :
    allFrom p (t ++ newline :: s) =
      allFrom p t ++ ⟨.space, [newline], p.after t⟩ :: allFrom (p.after (t ++ [newline])) s := by
  induction t using pieces_induction generalizing p with
  | nil =>
    have hnewline : Piece .space [newline] s := .space rfl
    rw [allFrom]
    exact allFrom_of_piece hnewline p
  | @piece kind text after hpiece ih =>
    rw [allFrom_of_piece hpiece] at h ⊢
    obtain ⟨hends, hafter⟩ := List.forall_mem_cons.mp h
    rw [List.append_assoc, allFrom_of_piece (hpiece.append_newline hends s), ih hafter,
      List.append_assoc, Position.after_append p text, Position.after_append p text,
      List.cons_append]

end Fragment

/-- A text that is scanned without errors, and another one on the lines below it. -/
theorem scan_append_newline {source : Text} (h : (scan source).errors = []) (below : Text) :
    let move := Position.down (source.count newline + 1)
    scan (source ++ newline :: below) =
      ⟨(scan source).tokens ++ (scan below).tokens.map (Token.move move),
        (scan below).errors.map (SourceError.move move), move (scan below).stop⟩ := by
  intro move
  rw [errors_scan] at h
  have hclosed : ∀ f ∈ Fragment.all source, f.kind ≠ .unterminated := by
    intro f hf hkind
    have herror : f.error? = some ⟨.unterminatedString, f.position⟩ := by
      rw [Fragment.error?, hkind]
    have hmem := List.mem_filterMap.mpr ⟨f, hf, herror⟩
    rw [h] at hmem
    cases hmem
  have hstart : Position.start.after (source ++ [newline]) = move .start := by
    rw [Position.after_newline]
    rfl
  have hall : Fragment.all (source ++ newline :: below) = Fragment.all source ++
      ⟨.space, [newline], Position.start.after source⟩ ::
        (Fragment.all below).map (Fragment.move move) := by
    unfold Fragment.all
    rw [Fragment.allFrom_append_newline hclosed, hstart,
      Fragment.allFrom_move (Position.advance_down _)]
  have hstop : Position.start.after (source ++ newline :: below) =
      move (Position.start.after below) := by
    rw [List.append_cons, Position.after_append, hstart,
      Position.after_of_advance (Position.advance_down _)]
  rw [scan_eq, scan_eq, scan_eq, hall, hstop]
  dsimp only
  rw [List.filterMap_append, List.filterMap_append, h, List.filterMap_cons_none rfl,
    List.filterMap_cons_none rfl, Fragment.filterMap_token?_move, Fragment.filterMap_error?_move,
    List.nil_append]

end Lox
