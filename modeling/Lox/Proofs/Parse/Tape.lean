import Lox.Proofs.Parse.Follow

/-! The helpers of the parser by indices into a list whose last entry is the end. A read outside of
the list, or of the entry before the first one, gives nothing. -/

namespace Lox

/-- The tokens, and after them the end, which has no token. -/
def tape (tokens : List Token) : List (Option Token) := tokens.map some ++ [none]

namespace Tape

variable (entries : List (Option Token))

/-- The entry before an index. -/
def previous? : Nat → Option (Option Token)
  | 0 => none
  | i + 1 => entries[i]?

/-- Goes past an entry that is not the end. The entry before the new index comes with it. -/
def advance? (i : Nat) : Option (Option Token × Nat) := do
  let next ← entries[i]?
  let i := if next.isSome then i + 1 else i
  return (← previous? entries i, i)

/-- Goes on up to an entry after a semicolon or one that is likely to start a statement. -/
def toStatement? (i : Nat) : Option Nat :=
  match _h : entries[i]? with
  | none => none
  | some none => some i
  | some (some token) => do
    let before ← previous? entries i
    if before.any (·.kind = .semicolon) || token.kind.startsStatement then return i
    else toStatement? (i + 1)
  termination_by entries.length - i
  decreasing_by
    have := (List.getElem?_eq_some_iff.mp _h).1
    omega

/-- Where parsing goes on after an error at an index. -/
def synchronize? (i : Nat) : Option Nat := do
  let (_, i) ← advance? entries i
  toStatement? entries i

variable {entries}

theorem toStatement?_of_end {i : Nat} (h : entries[i]? = some none) :
    toStatement? entries i = some i := by
  rw [toStatement?]
  split <;> simp_all

private theorem toStatement?_of_token {i : Nat} {token t : Token}
    (h : entries[i]? = some (some token)) (hbefore : previous? entries i = some (some t)) :
    toStatement? entries i =
      if t.kind = .semicolon || token.kind.startsStatement then some i
      else toStatement? entries (i + 1) := by
  rw [toStatement?]
  split
  · simp_all
  · simp_all
  · rename_i u hu
    cases h.symm.trans hu
    simp only [hbefore, Option.bind_eq_bind, Option.bind_some, Option.any_some]
    rfl

end Tape

def Cursor.index (tokens : List Token) (c : Cursor Unit) : Nat := tokens.length - c.rest.length

namespace Tape

theorem getElem?_tape (before rest : List Token) :
    (tape (before ++ rest))[before.length]? = some rest.head? := by
  unfold tape
  cases rest <;> simp

theorem getElem?_tape_succ (before rest : List Token) (t : Token) :
    (tape (before ++ t :: rest))[before.length + 1]? = some rest.head? := by
  have h := getElem?_tape (before ++ [t]) rest
  rwa [List.append_assoc, List.length_append, List.length_singleton] at h

theorem previous?_tape (before rest : List Token) (t : Token) :
    previous? (tape (before ++ t :: rest)) (before.length + 1) = some (some t) :=
  getElem?_tape before (t :: rest)

theorem advance?_tape (before rest : List Token) (t : Token) :
    advance? (tape (before ++ t :: rest)) before.length = some (some t, before.length + 1) := by
  simp [advance?, getElem?_tape, previous?_tape]

private theorem advance?_tape_end (before : List Token) (t : Token) :
    advance? (tape (before ++ [t])) (before.length + 1) = some (some t, before.length + 1) := by
  simp [advance?, getElem?_tape_succ, previous?_tape]

/-- After a token, the same tokens are dropped. -/
theorem toStatement?_tape (before rest : List Token) (t : Token) :
    toStatement? (tape (before ++ t :: rest)) (before.length + 1) =
      some ((before ++ t :: rest).length - (dropToStatement t.kind rest).length) := by
  induction rest generalizing before t with
  | nil =>
    rw [toStatement?_of_end (getElem?_tape_succ before [] t)]
    simp [dropToStatement]
  | cons u rest ih =>
    have hlater := ih (before ++ [t]) u
    rw [List.append_assoc, List.length_append, List.length_singleton] at hlater
    rw [toStatement?_of_token (getElem?_tape_succ before (u :: rest) t) (previous?_tape ..),
      dropToStatement]
    split
    · simp
      omega
    · exact hlater

end Tape

section

variable {tokens : List Token} {c : Cursor Unit}

theorem Cursor.index_of_append {before : List Token} (h : before ++ c.rest = tokens) :
    c.index tokens = before.length := by
  simp [index, ← h]

/-- By indices parsing goes on at the same place, and nothing outside of the list is read. -/
theorem Tape.synchronize?_tape (hsuffix : c.rest <:+ tokens) (htokens : tokens ≠ []) :
    synchronize? (tape tokens) (c.index tokens) = some (c.resume.index tokens) := by
  obtain ⟨before, hbefore⟩ := hsuffix
  rw [c.index_of_append hbefore]
  subst hbefore
  obtain ⟨rest, stop, errors⟩ := c
  cases rest with
  | nil =>
    -- there are tokens, so one of them is the entry before the end
    rw [List.append_nil] at htokens ⊢
    obtain ⟨init, t, rfl⟩ := (List.eq_nil_or_concat before).resolve_left htokens
    rw [List.concat_eq_append, List.length_append, List.length_singleton]
    simp only [synchronize?, advance?_tape_end, Option.bind_eq_bind, Option.bind_some]
    rw [toStatement?_of_end (getElem?_tape_succ init [] t)]
    simp [Cursor.resume, Cursor.index]
  | cons t rest =>
    simp only [synchronize?, advance?_tape, Option.bind_eq_bind, Option.bind_some]
    exact toStatement?_tape before rest t

/-- Without tokens the end is the first entry, and nothing is before it. -/
example : Tape.synchronize? (tape []) 0 = none := rfl

/-- At a cursor of the list, the entry at its index is the next token or the end; and a token that
is taken is the entry before the cursor after it. -/
structure Tape.Mirrors (tokens : List Token) (c : Cursor Unit) : Prop where
  next : (tape tokens)[c.index tokens]? = some c.rest.head?
  taken : ∀ t rest, c.rest = t :: rest →
    advance? (tape tokens) (c.index tokens) =
      some (some t, Cursor.index tokens { c with rest := rest })

theorem Tape.mirrors_of_suffix (hsuffix : c.rest <:+ tokens) : Mirrors tokens c := by
  obtain ⟨before, hbefore⟩ := hsuffix
  constructor
  · rw [c.index_of_append hbefore, ← hbefore]
    exact getElem?_tape before c.rest
  · intro t rest hrest
    have hafter : (before ++ [t]) ++ rest = tokens := by
      rw [← hbefore, hrest, List.append_assoc, List.singleton_append]
    rw [c.index_of_append hbefore, Cursor.index_of_append hafter, ← hbefore, hrest,
      advance?_tape, List.length_append, List.length_singleton]

end

end Lox
