import Mathlib.Data.List.TakeWhile
import Lox.Session.Console

/-! What a console is to make of a list of lines, told from the lines alone: command lines, and
inputs of as many lines as it takes until nothing is left open. Lines fall into such parts in just
one way, with unfinished lines after the last part. -/

namespace Lox.Console

open Text Delimiters

/-- Whether the first unit of a line that is no blank is a colon. -/
def isCommandLine (line : Text) : Bool := line.find? (! isBlank ·) = some (unit ':')

/-- A line without its blanks starts where its first blanks end. -/
theorem head?_trim (line : Text) : (trim line).head? = line.find? (! isBlank ·) := by
  rw [List.find?_not_eq_head?_dropWhile]
  unfold trim
  cases h : line.dropWhile isBlank with
  | nil => rfl
  | cons u rest =>
    have hu : isBlank u = false := by
      have hhead := List.head?_dropWhile_not isBlank line
      rw [h] at hhead
      exact hhead
    rw [List.reverse_cons, List.dropWhile_append]
    split_ifs with hblank
    · rw [List.dropWhile_cons_of_neg (by simp [hu])]
      rfl
    · rw [List.reverse_append]
      rfl

theorem isCommand_trim (line : Text) : isCommand (trim line) = isCommandLine line := by
  unfold isCommand isCommandLine
  rw [head?_trim]

def joined (lines : List Text) : Text := join [newline] lines

theorem joined_concat {lines : List Text} (h : lines ≠ []) (line : Text) :
    joined (lines ++ [line]) = joined lines ++ [newline] ++ line := by
  unfold joined
  fun_induction join [newline] lines with
  | case1 => exact absurd rfl h
  | case2 t => simp [join]
  | case3 t rest hrest ih =>
    have hne : rest ≠ [] := fun hnil => hrest hnil
    rw [List.cons_append, join, ih hne]
    · simp
    · exact List.concat_ne_nil line rest

/-- The first of the lines, if there is one, is no command line. -/
def Starts (lines : List Text) : Prop := ∀ line ∈ lines.head?, isCommandLine line = false

/-- An input that something is open in after each of its lines. -/
structure Unfinished (lines : List Text) : Prop where
  starts : Starts lines
  opened : ∀ first, first <+: lines → first ≠ [] → unclosed (joined first) = true

/-- An input that nothing is open in after its last line, for the first time. -/
structure Complete (lines : List Text) : Prop where
  ne_nil : lines ≠ []
  starts : Starts lines
  closed : unclosed (joined lines) = false
  shortest : ∀ first, first <+: lines → first ≠ [] → first ≠ lines →
    unclosed (joined first) = true

/-- What a console takes as one. -/
inductive Part where
  | command (line : Text)
  | input (lines : List Text)

namespace Part

def lines : Part → List Text
  | .command line => [line]
  | .input lines => lines

def Sound : Part → Prop
  | .command line => isCommandLine line = true
  | .input lines => Complete lines

end Part

/-- The lines are those of the parts, in order, and then unfinished ones. -/
structure Divides (lines : List Text) (parts : List Part) (rest : List Text) : Prop where
  lines_eq : lines = parts.flatMap Part.lines ++ rest
  sound : ∀ p ∈ parts, p.Sound
  unfinished : Unfinished rest

section Growth

variable {lines : List Text} {line : Text}

theorem unfinished_nil : Unfinished [] := ⟨nofun, fun _ hfirst hne =>
  absurd (List.prefix_nil.mp hfirst) hne⟩

theorem starts_concat :
    Starts (lines ++ [line]) ↔ Starts lines ∧ (lines = [] → isCommandLine line = false) := by
  cases lines <;> simp [Starts]

theorem Unfinished.concat (h : Unfinished lines) (hline : lines = [] → isCommandLine line = false)
    (hopen : unclosed (joined (lines ++ [line])) = true) : Unfinished (lines ++ [line]) where
  starts := starts_concat.mpr ⟨h.starts, hline⟩
  opened := by
    intro first hfirst hne
    rcases List.prefix_concat_iff.mp hfirst with rfl | hbefore
    · exact hopen
    · exact h.opened first hbefore hne

theorem Unfinished.complete (h : Unfinished lines) (hline : lines = [] → isCommandLine line = false)
    (hclosed : unclosed (joined (lines ++ [line])) = false) : Complete (lines ++ [line]) where
  ne_nil := List.concat_ne_nil line lines
  starts := starts_concat.mpr ⟨h.starts, hline⟩
  closed := hclosed
  shortest := by
    intro first hfirst hne hproper
    rcases List.prefix_concat_iff.mp hfirst with rfl | hbefore
    · exact absurd rfl hproper
    · exact h.opened first hbefore hne

theorem Complete.unfinished (h : Complete (lines ++ [line])) :
    Unfinished lines ∧ (lines = [] → isCommandLine line = false) := by
  obtain ⟨hstarts, hline⟩ := starts_concat.mp h.starts
  refine ⟨⟨hstarts, ?_⟩, hline⟩
  intro first hfirst hne
  apply h.shortest first (hfirst.trans (List.prefix_append lines [line])) hne
  have hlength := hfirst.length_le
  rintro rfl
  rw [List.length_append, List.length_singleton] at hlength
  omega

theorem Unfinished.of_concat (h : Unfinished (lines ++ [line])) :
    Unfinished lines ∧ (lines = [] → isCommandLine line = false) := by
  obtain ⟨hstarts, hline⟩ := starts_concat.mp h.starts
  refine ⟨⟨hstarts, ?_⟩, hline⟩
  intro first hfirst hne
  exact h.opened first (hfirst.trans (List.prefix_append lines [line])) hne

end Growth

/-- Lines can be divided, after lines that are unfinished so far. -/
theorem exists_divides (lines gathered : List Text) (h : Unfinished gathered) :
    ∃ parts rest, Divides (gathered ++ lines) parts rest := by
  induction lines generalizing gathered with
  | nil => exact ⟨[], gathered, by simp, nofun, h⟩
  | cons line lines ih =>
    by_cases hcommand : gathered = [] ∧ isCommandLine line = true
    · obtain ⟨rfl, hline⟩ := hcommand
      obtain ⟨parts, rest, hlines, hsound, hrest⟩ := ih [] unfinished_nil
      rw [List.nil_append] at hlines
      refine ⟨.command line :: parts, rest, ?_, ?_, hrest⟩
      · rw [hlines]; rfl
      · exact List.forall_mem_cons.mpr ⟨hline, hsound⟩
    · have hline : gathered = [] → isCommandLine line = false := by
        intro hnil
        simpa [hnil] using hcommand
      cases hopen : unclosed (joined (gathered ++ [line])) with
      | true =>
        obtain ⟨parts, rest, hdivides⟩ := ih (gathered ++ [line]) (h.concat hline hopen)
        rw [List.append_assoc] at hdivides
        exact ⟨parts, rest, hdivides⟩
      | false =>
        obtain ⟨parts, rest, hlines, hsound, hrest⟩ := ih [] unfinished_nil
        rw [List.nil_append] at hlines
        refine ⟨.input (gathered ++ [line]) :: parts, rest, ?_, ?_, hrest⟩
        · rw [hlines]
          simp [Part.lines]
        · exact List.forall_mem_cons.mpr ⟨h.complete hline hopen, hsound⟩

section Uniqueness

variable {lines rest rest' : List Text} {p p' : Part} {parts parts' : List Part}

/-- No input goes on where another one is complete. -/
theorem Complete.eq_of_first {first : List Text} (h : Complete first) (h' : Complete lines)
    (hstart : first <+: lines) : first = lines := by
  by_contra hne
  have hopen := h'.shortest first hstart h.ne_nil hne
  rw [h.closed] at hopen
  cases hopen

private theorem Complete.not_command (h : Complete lines) (hstart : lines <+: rest) {line : Text}
    (hline : [line] <+: rest) : isCommandLine line = false := by
  obtain ⟨l, ls, rfl⟩ := List.exists_cons_of_ne_nil h.ne_nil
  obtain ⟨tail, rfl⟩ := hstart
  have heq : line = l := by simpa using hline
  rw [heq]
  exact h.starts l rfl

/-- There is one part at most that the lines can start with. -/
theorem Part.Sound.eq_of_start (h : p.Sound) (h' : p'.Sound) (hp : p.lines <+: rest)
    (hp' : p'.lines <+: rest) : p = p' := by
  cases p with
  | command line =>
    cases p' with
    | command line' =>
      obtain ⟨tail, rfl⟩ := hp
      have heq : line' = line := by simpa [Part.lines] using hp'
      rw [heq]
    | input lines' =>
      have hno := Complete.not_command h' hp' hp
      rw [show isCommandLine line = true from h] at hno
      cases hno
  | input lines =>
    cases p' with
    | command line' =>
      have hno := Complete.not_command h hp hp'
      rw [show isCommandLine line' = true from h'] at hno
      cases hno
    | input lines' =>
      rcases List.prefix_or_prefix_of_prefix hp hp' with hstart | hstart
      · rw [show lines = lines' from Complete.eq_of_first h h' hstart]
      · rw [show lines' = lines from Complete.eq_of_first h' h hstart]

/-- Unfinished lines start with no part. -/
theorem Unfinished.no_part (h : Unfinished rest) (hp : p.Sound) : ¬ p.lines <+: rest := by
  intro hstart
  cases p with
  | command line =>
    obtain ⟨tail, rfl⟩ := hstart
    have hno := h.starts line rfl
    rw [show isCommandLine line = true from hp] at hno
    cases hno
  | input lines =>
    have hopen := h.opened lines hstart (Complete.ne_nil hp)
    rw [show unclosed (joined lines) = false from Complete.closed hp] at hopen
    cases hopen

private theorem Divides.tail (h : Divides lines (p :: parts) rest) :
    Divides (parts.flatMap Part.lines ++ rest) parts rest :=
  ⟨rfl, fun q hq => h.sound q (List.mem_cons_of_mem p hq), h.unfinished⟩

private theorem Divides.start_of_cons (h : Divides lines (p :: parts) rest) : p.lines <+:
    lines := by
  rw [h.lines_eq, List.flatMap_cons, List.append_assoc]
  exact List.prefix_append _ _

theorem Divides.unique (h : Divides lines parts rest) (h' : Divides lines parts' rest') :
    parts = parts' ∧ rest = rest' := by
  induction parts generalizing lines parts' with
  | nil =>
    have hlines : lines = rest := h.lines_eq
    cases parts' with
    | nil =>
      have hlines' : lines = rest' := h'.lines_eq
      exact ⟨rfl, hlines.symm.trans hlines'⟩
    | cons p' parts' =>
      have hunfinished := h.unfinished
      rw [← hlines] at hunfinished
      exact absurd h'.start_of_cons (hunfinished.no_part (h'.sound p' List.mem_cons_self))
  | cons p parts ih =>
    cases parts' with
    | nil =>
      have hlines' : lines = rest' := h'.lines_eq
      have hunfinished := h'.unfinished
      rw [← hlines'] at hunfinished
      exact absurd h.start_of_cons (hunfinished.no_part (h.sound p List.mem_cons_self))
    | cons p' parts' =>
      obtain rfl : p = p' := (h.sound p List.mem_cons_self).eq_of_start
        (h'.sound p' List.mem_cons_self) h.start_of_cons h'.start_of_cons
      have hsame : parts.flatMap Part.lines ++ rest = parts'.flatMap Part.lines ++ rest' := by
        have hboth := h.lines_eq.symm.trans h'.lines_eq
        rw [List.flatMap_cons, List.flatMap_cons, List.append_assoc, List.append_assoc] at hboth
        exact List.append_cancel_left hboth
      have htail' := h'.tail
      rw [← hsame] at htail'
      obtain ⟨rfl, rfl⟩ := ih h.tail htail'
      exact ⟨rfl, rfl⟩

end Uniqueness

end Lox.Console
