import Lox.Proofs.Source.Fragment

/-! Tokens and errors at other places. A text that starts at another place is cut into the same
fragments, as long as the places move in step. -/

namespace Lox

open Text

/-- The same token at another place. -/
def Token.move (f : Position → Position) (t : Token) : Token := { t with position := f t.position }

theorem Token.move_position (f : Position → Position) (t : Token) :
    (t.move f).position = f t.position := rfl

def SourceError.move (f : Position → Position) (e : SourceError) : SourceError :=
  { e with position := f e.position }

namespace Position

/-- The place so many lines further down. -/
def down (k : Nat) (p : Position) : Position := { p with line := p.line + k }

theorem advance_down (k : Nat) (p : Position) (u : CodeUnit) :
    (p.down k).advance u = (p.advance u).down k := by
  unfold advance
  split
  · exact congrArg (Position.mk · 1) (Nat.add_right_comm p.line k 1)
  · rfl

private theorem line_after (p : Position) (t : Text) :
    (p.after t).line = p.line + t.count newline := by
  induction t generalizing p with
  | nil => rfl
  | cons u rest ih =>
    rw [after_cons, ih, List.count_cons, advance]
    split
    · simp [*]; omega
    · simp [*]

/-- A new line starts below all lines of the text. -/
theorem after_newline (p : Position) (t : Text) :
    p.after (t ++ [newline]) = ⟨p.line + (t.count newline + 1), 1⟩ := by
  rw [after_append, ← Nat.add_assoc, ← line_after]
  rfl

variable {f : Position → Position}

theorem after_of_advance (hf : ∀ p u, (f p).advance u = f (p.advance u)) (p : Position) (t : Text) :
    (f p).after t = f (p.after t) := by
  induction t generalizing p with
  | nil => rfl
  | cons u rest ih => rw [after_cons, after_cons, hf, ih]

end Position

namespace Fragment

/-- The same fragment at another place. -/
def move (f : Position → Position) (fragment : Fragment) : Fragment :=
  { fragment with position := f fragment.position }

variable {f : Position → Position}

theorem allFrom_move (hf : ∀ p u, (f p).advance u = f (p.advance u)) (p : Position) (t : Text) :
    allFrom (f p) t = (allFrom p t).map (move f) := by
  fun_induction allFrom p t with
  | case1 => rw [allFrom]; rfl
  | case2 p u rest kind length text ih =>
    rw [allFrom, List.map_cons, Position.after_of_advance hf, ih]
    rfl

private theorem token?_move (fragment : Fragment) :
    (fragment.move f).token? = fragment.token?.map (Token.move f) := by
  obtain ⟨kind, text, position⟩ := fragment
  cases kind <;> rfl

private theorem error?_move (fragment : Fragment) :
    (fragment.move f).error? = fragment.error?.map (SourceError.move f) := by
  obtain ⟨kind, text, position⟩ := fragment
  cases kind <;> rfl

theorem filterMap_token?_move (fragments : List Fragment) :
    (fragments.map (move f)).filterMap token? =
      (fragments.filterMap token?).map (Token.move f) := by
  rw [List.filterMap_map, List.map_filterMap]
  exact congrArg (List.filterMap · fragments) (funext token?_move)

theorem filterMap_error?_move (fragments : List Fragment) :
    (fragments.map (move f)).filterMap error? =
      (fragments.filterMap error?).map (SourceError.move f) := by
  rw [List.filterMap_map, List.map_filterMap]
  exact congrArg (List.filterMap · fragments) (funext error?_move)

end Fragment

end Lox
