import Mathlib.Data.List.Induction
import Mathlib.Tactic.Ring
import Lox.Text

/-! Decimal digits: what numbers are written in, and how far a reader of digits goes. -/

namespace Lox.Text

section Prefix

variable {α : Type} {p : α → Bool} {s t : List α}

/-- No unit that passes the test stands at the start of the text. -/
def Stops (p : α → Bool) (t : List α) : Prop := ∀ u ∈ t.head?, p u = false

theorem stops_nil (p : α → Bool) : Stops p [] := nofun

theorem stops_cons {u : α} (h : p u = false) (t : List α) : Stops p (u :: t) := by
  intro v hv
  cases hv
  exact h

private theorem takeWhile_of_stops (h : Stops p t) : t.takeWhile p = [] := by
  cases t with
  | nil => rfl
  | cons u t => rw [List.takeWhile_cons, h u rfl]; rfl

theorem dropWhile_of_stops (h : Stops p t) : t.dropWhile p = t := by
  cases t with
  | nil => rfl
  | cons u t => rw [List.dropWhile_cons, h u rfl]; rfl

theorem takeWhile_append_of_stops (hs : ∀ u ∈ s, p u = true) (ht : Stops p t) :
    (s ++ t).takeWhile p = s := by
  rw [List.takeWhile_append_of_pos hs, takeWhile_of_stops ht, List.append_nil]

theorem stops_dropWhile (p : α → Bool) (t : List α) : Stops p (t.dropWhile p) := by
  intro u hu
  have hhead := List.head?_dropWhile_not p t
  rw [hu] at hhead
  exact hhead

theorem dropWhile_append_of_stops (hs : ∀ u ∈ s, p u = true) (ht : Stops p t) :
    (s ++ t).dropWhile p = t := by
  rw [List.dropWhile_append_of_pos hs, dropWhile_of_stops ht]

end Prefix

section Value

theorem digitsValue_concat (s : Text) (u : CodeUnit) :
    digitsValue (s ++ [u]) = 10 * digitsValue s + (u.toNat - (unit '0').toNat) := by
  rw [digitsValue, List.foldl_append]
  rfl

theorem digitsValue_append (s t : Text) :
    digitsValue (s ++ t) = digitsValue s * 10 ^ t.length + digitsValue t := by
  induction t using List.reverseRecOn with
  | nil => simp [digitsValue]
  | append_singleton t u ih =>
    rw [← List.append_assoc, digitsValue_concat, digitsValue_concat, ih, List.length_append,
      List.length_singleton, Nat.pow_succ]
    ring

theorem unit_digitChar {d : Nat} (h : d < 10) :
    isDigit (unit d.digitChar) = true ∧ (unit d.digitChar).toNat - (unit '0').toNat = d ∧
      (unit d.digitChar = unit '0' → d = 0) := by
  revert d
  decide

theorem ofNat_of_lt {n : Nat} (h : n < 10) : ofNat n = [unit n.digitChar] := by
  rw [ofNat, Nat.toDigits_of_lt_base h]
  rfl

theorem ofNat_of_le {n : Nat} (h : 10 ≤ n) :
    ofNat n = ofNat (n / 10) ++ [unit (n % 10).digitChar] := by
  rw [ofNat, Nat.toDigits_of_base_le (by decide) h, List.map_append]
  rfl

/-- Induction on the digits of a number, the last one first. -/
theorem digits_induction {motive : Nat → Prop} (digit : ∀ n, n < 10 → motive n)
    (more : ∀ n, 10 ≤ n → motive (n / 10) → motive n) (n : Nat) : motive n := by
  induction n using Nat.strongRecOn with
  | ind n ih =>
    by_cases h : n < 10
    · exact digit n h
    · exact more n (by omega) (ih (n / 10) (by omega))

theorem ofNat_ne_nil (n : Nat) : ofNat n ≠ [] := by
  simp [ofNat, Nat.toDigits_ne_nil]

theorem isDigit_of_mem_ofNat (n : Nat) : ∀ u ∈ ofNat n, isDigit u = true := by
  induction n using digits_induction with
  | digit n h =>
    rw [ofNat_of_lt h]
    intro u hu
    rw [List.mem_singleton.mp hu]
    exact (unit_digitChar h).1
  | more n h ih =>
    rw [ofNat_of_le h]
    intro u hu
    rcases List.mem_append.mp hu with hu | hu
    · exact ih u hu
    · rw [List.mem_singleton.mp hu]
      exact (unit_digitChar (Nat.mod_lt n (by decide))).1

/-- The digits of a number are read as that number. -/
theorem digitsValue_ofNat (n : Nat) : digitsValue (ofNat n) = n := by
  induction n using digits_induction with
  | digit n h =>
    rw [ofNat_of_lt h, ← List.nil_append [_], digitsValue_concat, (unit_digitChar h).2.1]
    exact Nat.zero_add n
  | more n h ih =>
    rw [ofNat_of_le h, digitsValue_concat, ih, (unit_digitChar (Nat.mod_lt n (by decide))).2.1]
    exact Nat.div_add_mod n 10

/-- Only zero is written with a leading zero. -/
theorem head?_ofNat_ne {n : Nat} (h : n ≠ 0) : (ofNat n).head? ≠ some (unit '0') := by
  induction n using digits_induction with
  | digit n hn =>
    rw [ofNat_of_lt hn]
    intro heq
    exact h ((unit_digitChar hn).2.2 (Option.some.inj heq))
  | more n hn ih =>
    obtain ⟨u, t, ht⟩ := List.exists_cons_of_ne_nil (ofNat_ne_nil (n / 10))
    have hlead := ih (by omega)
    rw [ofNat_of_le hn, ht]
    rwa [ht] at hlead

end Value

end Lox.Text
