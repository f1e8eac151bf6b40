import Lox.Json.Reader
import Lox.Json.Writer
import Lox.Proofs.Number.Shortest
import Lox.Proofs.Text.Digits

/-! Numbers are read back from the text that they are written as. -/

namespace Lox

open Text

namespace Number

/-- The plain form of a number tells it from all others: it is finite, and not the negative zero. -/
def Expressible (x : Float) : Prop :=
  ∃ negative m e, form x = .finite negative m e ∧ (m = 0 → negative = false)

end Number

namespace Json

open Number

section Spelled

/-- The text starts with a decimal without a sign, as the format has it, and `rest` follows. -/
def Spells (t : Text) (d : Decimal) (rest : Text) : Prop :=
  ∃ whole fraction exponent afterWhole afterFraction,
    wholePart t = .ok (whole, afterWhole) ∧
    fractionPart afterWhole = .ok (fraction, afterFraction) ∧
    exponentPart afterFraction = .ok (exponent, rest) ∧ d = ofDigits whole fraction exponent

variable {t rest : Text} {d : Decimal}

theorem Spells.isDigit_head (h : Spells t d rest) : ∃ u s, t = u :: s ∧ isDigit u = true := by
  obtain ⟨whole, _, _, _, _, hwhole, -⟩ := h
  cases t with
  | nil => cases hwhole
  | cons u s =>
    refine ⟨u, s, rfl, ?_⟩
    by_contra hu
    rw [wholePart, List.takeWhile_cons, if_neg hu] at hwhole
    cases hwhole

private theorem Spells.head?_ne (h : Spells t d rest) : t.head? ≠ some (unit '-') := by
  obtain ⟨u, s, rfl, hu⟩ := h.isDigit_head
  rintro ⟨⟩
  exact absurd hu (by decide)

/-- A decimal behind a sign, or without one. -/
theorem Spells.readNumber (h : Spells t d rest) (negative : Bool) :
    Json.readNumber (if negative then unit '-' :: t else t) =
      .ok (d.toFloat negative, rest) := by
  have hsign := h.head?_ne
  obtain ⟨whole, fraction, exponent, _, _, hwhole, hfraction, hexponent, rfl⟩ := h
  rw [Json.readNumber]
  cases negative with
  | false =>
    simp only [Bool.false_eq_true, if_false, hsign, decide_false, hwhole, hfraction, hexponent,
      bind, Except.bind]
    rfl
  | true =>
    simp only [if_true, List.head?_cons, decide_true, List.drop_one, List.tail_cons, hwhole,
      hfraction, hexponent, bind, Except.bind]
    rfl

end Spelled

section Parts

def continues (u : CodeUnit) : Bool :=
  isDigit u || u == unit '.' || u == unit 'e' || u == unit 'E'

variable {ds rest : Text}

theorem wholePart_append (hds : ∀ u ∈ ds, isDigit u = true) (hne : ds ≠ [])
    (hlead : ds.head? ≠ some (unit '0') ∨ ds.length = 1) (hrest : Stops isDigit rest) :
    wholePart (ds ++ rest) = .ok (ds, rest) := by
  rw [wholePart, takeWhile_append_of_stops hds hrest, dropWhile_append_of_stops hds hrest]
  match ds with
  | [] => exact absurd rfl hne
  | [u] => rfl
  | u :: v :: ds =>
    have hu : u ≠ unit '0' := by
      rintro rfl
      exact hlead.elim (· rfl) nofun
    simp only [if_neg hu]

theorem digits_append (missing : Flaw) (hds : ∀ u ∈ ds, isDigit u = true) (hne : ds ≠ [])
    (hrest : Stops isDigit rest) : digits missing (ds ++ rest) = .ok (ds, rest) := by
  rw [digits, takeWhile_append_of_stops hds hrest, dropWhile_append_of_stops hds hrest]
  match ds with
  | [] => exact absurd rfl hne
  | u :: ds => rfl

theorem fractionPart_append (hds : ∀ u ∈ ds, isDigit u = true) (hne : ds ≠ [])
    (hrest : Stops isDigit rest) :
    fractionPart (unit '.' :: (ds ++ rest)) = .ok (ds, rest) := by
  rw [fractionPart, if_pos rfl, digits_append _ hds hne hrest]

theorem fractionPart_of_stops (hrest : Stops (· == unit '.') rest) :
    fractionPart rest = .ok ([], rest) := by
  cases rest with
  | nil => rfl
  | cons u rest =>
    have hu : u ≠ unit '.' := by simpa using hrest u rfl
    rw [fractionPart, if_neg hu]

private theorem exponentPart_append (negative : Bool) (hds : ∀ u ∈ ds, isDigit u = true)
    (hne : ds ≠ []) (hrest : Stops isDigit rest) :
    exponentPart (unit 'e' :: unit (if negative then '-' else '+') :: (ds ++ rest)) =
      .ok (if negative then -(digitsValue ds : Int) else digitsValue ds, rest) := by
  have hsign : takeSign (unit (if negative then '-' else '+') :: (ds ++ rest)) =
      (negative, ds ++ rest) := by
    cases negative <;> rfl
  rw [exponentPart, if_pos (by decide), hsign]
  dsimp only
  rw [digits_append _ hds hne hrest]
  rfl

theorem exponentPart_of_stops (hrest : Stops (fun u => u == unit 'e' || u == unit 'E') rest) :
    exponentPart rest = .ok (0, rest) := by
  cases rest with
  | nil => rfl
  | cons u rest =>
    have hu := hrest u rfl
    rw [exponentPart, if_neg]
    simpa using hu

end Parts

section Layout

variable {whole fraction ds rest : Text}

/-- Nothing in the text goes on with a number. -/
theorem Stops.parts (h : Stops continues rest) :
    Stops isDigit rest ∧ Stops (· == unit '.') rest ∧
      Stops (fun u => u == unit 'e' || u == unit 'E') rest := by
  have hunit (u : CodeUnit) (hu : u ∈ rest.head?) : isDigit u = false ∧ (u == unit '.') = false ∧
      (u == unit 'e' || u == unit 'E') = false := by
    have hu := h u hu
    simp only [continues, Bool.or_assoc, Bool.or_eq_false_iff] at hu ⊢
    exact hu
  exact ⟨fun u hu => (hunit u hu).1, fun u hu => (hunit u hu).2.1, fun u hu => (hunit u hu).2.2⟩

theorem spells_whole (hwhole : ∀ u ∈ whole, isDigit u = true) (hne : whole ≠ [])
    (hlead : whole.head? ≠ some (unit '0') ∨ whole.length = 1) (hrest : Stops continues rest) :
    Spells (whole ++ rest) ⟨digitsValue whole, 0⟩ rest := by
  obtain ⟨hdigit, hpoint, hexponent⟩ := Stops.parts hrest
  refine ⟨whole, [], 0, rest, rest, wholePart_append hwhole hne hlead hdigit,
    fractionPart_of_stops hpoint, exponentPart_of_stops hexponent, ?_⟩
  rw [ofDigits, List.append_nil]
  rfl

theorem spells_fraction (hwhole : ∀ u ∈ whole, isDigit u = true) (hne : whole ≠ [])
    (hlead : whole.head? ≠ some (unit '0') ∨ whole.length = 1)
    (hfraction : ∀ u ∈ fraction, isDigit u = true) (hne' : fraction ≠ [])
    (hrest : Stops continues rest) :
    Spells (whole ++ (unit '.' :: (fraction ++ rest)))
      ⟨digitsValue (whole ++ fraction), -fraction.length⟩ rest := by
  obtain ⟨hdigit, -, hexponent⟩ := Stops.parts hrest
  refine ⟨whole, fraction, 0, unit '.' :: (fraction ++ rest), rest,
    wholePart_append hwhole hne hlead (stops_cons (by decide) _),
    fractionPart_append hfraction hne' hdigit, exponentPart_of_stops hexponent, ?_⟩
  rw [ofDigits, Int.zero_sub]

/-- A single digit, perhaps with a fraction, and an exponent. -/
theorem spells_exponent {u : CodeUnit} (hu : isDigit u = true)
    (hfraction : ∀ v ∈ fraction, isDigit v = true) (power : Int) (hrest : Stops continues rest) :
    Spells (u :: ((if fraction = [] then [] else unit '.' :: fraction) ++
        (unit 'e' :: unit (if power < 0 then '-' else '+') :: (Text.ofNat power.natAbs ++ rest))))
      ⟨digitsValue (u :: fraction), power - fraction.length⟩ rest := by
  obtain ⟨hdigit, -, -⟩ := Stops.parts hrest
  have hexponent := exponentPart_append (decide (power < 0)) (isDigit_of_mem_ofNat power.natAbs)
    (ofNat_ne_nil _) hdigit
  have hpower : (if power < 0 then -(power.natAbs : Int) else power.natAbs) = power := by omega
  simp only [decide_eq_true_eq, digitsValue_ofNat, hpower] at hexponent
  have hwhole {r : Text} (hr : Stops isDigit r) : wholePart ([u] ++ r) = .ok ([u], r) :=
    wholePart_append (by simpa using hu) (List.cons_ne_nil _ _) (.inr rfl) hr
  by_cases hne : fraction = []
  · subst hne
    exact ⟨[u], [], power, _, _, hwhole (stops_cons (by decide) _),
      fractionPart_of_stops (stops_cons (by decide) _), hexponent, rfl⟩
  · rw [if_neg hne]
    exact ⟨[u], fraction, power, _, _, hwhole (stops_cons (by decide) _),
      fractionPart_append hfraction hne (stops_cons (by decide) _), hexponent, rfl⟩

theorem isDigit_of_mem_zeros {n : Nat} : ∀ u ∈ zeros n, isDigit u = true := by
  intro u hu
  rw [(List.mem_replicate.mp hu).2]
  decide

theorem digitsValue_zeros (n : Nat) : digitsValue (zeros n) = 0 := by
  induction n with
  | zero => rfl
  | succ n ih => rw [zeros, List.replicate_succ', ← zeros, digitsValue_concat, ih]; rfl

/-- The text starts with a decimal of the value that the digits have with the point behind so many
of them. -/
def SpellsAt (t ds : Text) (point : Int) (rest : Text) : Prop :=
  ∃ d, Spells t d rest ∧ ∀ negative, d.toFloat negative =
    Decimal.toFloat negative ⟨digitsValue ds, point - ds.length⟩

variable {point : Int}

private theorem spellsAt_whole (hds : ∀ u ∈ ds, isDigit u = true) (hne : ds ≠ [])
    (hlead : ds.head? ≠ some (unit '0')) (hrest : Stops continues rest)
    (hpoint : ds.length ≤ point) :
    SpellsAt (ds ++ zeros (point - ds.length).toNat ++ rest) ds point rest := by
  have hlead' : (ds ++ zeros (point - ds.length).toNat).head? ≠ some (unit '0') := by
    rwa [List.head?_append_of_ne_nil _ hne]
  refine ⟨_, spells_whole (List.forall_mem_append.mpr ⟨hds, isDigit_of_mem_zeros⟩)
    (List.append_ne_nil_of_left_ne_nil hne _) (.inl hlead') hrest, fun negative => ?_⟩
  rw [digitsValue_append, digitsValue_zeros, Nat.add_zero, zeros, List.length_replicate,
    Decimal.toFloat_shift]
  congr 2
  omega

private theorem spellsAt_between (hds : ∀ u ∈ ds, isDigit u = true)
    (hlead : ds.head? ≠ some (unit '0'))
    (hrest : Stops continues rest) (hpos : 0 < point) (hlt : point < ds.length) :
    SpellsAt (ds.take point.toNat ++ "." ++ ds.drop point.toNat ++ rest) ds point rest := by
  have htake : ds.take point.toNat ≠ [] := by
    intro h
    have := congrArg List.length h
    rw [List.length_take, List.length_nil] at this
    omega
  have hdrop : ds.drop point.toNat ≠ [] := by
    intro h
    have := List.drop_eq_nil_iff.mp h
    omega
  have hlead' : (ds.take point.toNat).head? ≠ some (unit '0') := by
    rwa [List.head?_take, if_neg (by omega)]
  rw [List.append_assoc, List.append_assoc]
  refine ⟨_, spells_fraction (fun u hu => hds u (List.mem_of_mem_take hu)) htake (.inl hlead')
    (fun u hu => hds u (List.mem_of_mem_drop hu)) hdrop hrest, fun negative => ?_⟩
  rw [List.take_append_drop, List.length_drop]
  congr 2
  omega

private theorem spellsAt_below (hds : ∀ u ∈ ds, isDigit u = true) (hne : ds ≠ [])
    (hrest : Stops continues rest) (hpoint : point ≤ 0) :
    SpellsAt ("0." ++ zeros (-point).toNat ++ ds ++ rest) ds point rest := by
  have htext : "0." ++ zeros (-point).toNat ++ ds ++ rest =
      [unit '0'] ++ (unit '.' :: (zeros (-point).toNat ++ ds ++ rest)) := by
    simp only [List.append_assoc]
    rfl
  have hvalue : digitsValue ([unit '0'] ++ (zeros (-point).toNat ++ ds)) = digitsValue ds := by
    rw [digitsValue_append, digitsValue_append, digitsValue_zeros, Nat.zero_mul, Nat.zero_add,
      show digitsValue [unit '0'] = 0 from rfl, Nat.zero_mul, Nat.zero_add]
  rw [htext]
  refine ⟨_, spells_fraction (List.forall_mem_singleton.mpr (by decide)) (List.cons_ne_nil _ _)
    (.inr rfl) (List.forall_mem_append.mpr ⟨isDigit_of_mem_zeros, hds⟩)
    (List.append_ne_nil_of_right_ne_nil _ hne) hrest, fun negative => ?_⟩
  rw [hvalue, List.length_append, zeros, List.length_replicate]
  congr 2
  omega

private theorem spellsAt_power (hds : ∀ u ∈ ds, isDigit u = true) (hne : ds ≠ [])
    (hrest : Stops continues rest) (point : Int) :
    SpellsAt (ds.take 1 ++ (if ds.length ≤ 1 then ([] : Text) else "." ++ ds.drop 1) ++ "e" ++
      (if point - 1 < 0 then ("-" : Text) else "+") ++ Text.ofNat (point - 1).natAbs ++ rest)
      ds point rest := by
  obtain ⟨u, fraction, rfl⟩ := List.exists_cons_of_ne_nil hne
  have hfraction : (if (u :: fraction).length ≤ 1 then ([] : Text)
      else "." ++ (u :: fraction).drop 1) =
        if fraction = [] then [] else unit '.' :: fraction := by
    cases fraction <;> rfl
  have htext : (u :: fraction).take 1 ++ (if fraction = [] then [] else unit '.' :: fraction) ++
      "e" ++ (if point - 1 < 0 then ("-" : Text) else "+") ++
        Text.ofNat (point - 1).natAbs ++ rest =
      u :: ((if fraction = [] then [] else unit '.' :: fraction) ++
        (unit 'e' :: unit (if point - 1 < 0 then '-' else '+') ::
          (Text.ofNat (point - 1).natAbs ++ rest))) := by
    simp only [List.append_assoc]
    split <;> split <;> rfl
  rw [hfraction, htext]
  refine ⟨_, spells_exponent (hds u List.mem_cons_self)
    (fun v hv => hds v (List.mem_cons_of_mem u hv)) _ hrest, fun negative => ?_⟩
  congr 2
  rw [List.length_cons]
  omega

/-- What a number is laid out as is read as the decimal that its digits and its point give. -/
theorem spellsAt_layout (point : Int) (hds : ∀ u ∈ ds, isDigit u = true) (hne : ds ≠ [])
    (hlead : ds.head? ≠ some (unit '0')) (hrest : Stops continues rest) :
    SpellsAt (layout .plain ds point ++ rest) ds point rest := by
  rw [layout]
  dsimp only
  split
  · by_cases hcount : (ds.length : Int) ≤ point
    · rw [if_pos hcount]
      exact spellsAt_whole hds hne hlead hrest hcount
    rw [if_neg hcount]
    by_cases hpos : 0 < point
    · rw [if_pos hpos]
      exact spellsAt_between hds hlead hrest hpos (Int.not_le.mp hcount)
    · rw [if_neg hpos]
      exact spellsAt_below hds hne hrest (Int.not_lt.mp hpos)
  · exact spellsAt_power hds hne hrest point

end Layout

section Written

private theorem exists_eq_dropTrailingZeros (t : Text) :
    ∃ n, t = dropTrailingZeros t ++ zeros n := by
  induction t using List.reverseRecOn with
  | nil => exact ⟨0, rfl⟩
  | append_singleton t u ih =>
    rw [dropTrailingZeros, List.reverse_append, List.reverse_singleton, List.singleton_append,
      List.dropWhile_cons]
    split
    · rename_i hu
      obtain ⟨n, hn⟩ := ih
      refine ⟨n + 1, ?_⟩
      rw [of_decide_eq_true hu, zeros, List.replicate_succ', ← List.append_assoc]
      exact congrArg (· ++ [unit '0']) hn
    · exact ⟨0, by simp [zeros]⟩

variable {x : Float} {rest : Text}

private theorem coefficient_shortest_ne_zero {negative : Bool} {m : Nat} {e : Int}
    (hx : form x = .finite negative m e) (hm : m ≠ 0) :
    (Decimal.shortest m e).coefficient ≠ 0 := by
  intro hzero
  have hshortest := Decimal.toFloat_shortest negative m e
  rw [Decimal.toFloat_eq_nearest, hzero, Nat.zero_mul, nearest_zero, scaled_of_form hx,
    ofMagnitudeBits_inj] at hshortest
  simp only [infinityBits, Nat.pow_eq] at hshortest
  omega

/-- The text of a double that is not zero, without its sign, is read as its magnitude. -/
theorem exists_spells_writeShortest {negative : Bool} {m : Nat} {e : Int}
    (hx : form x = .finite negative m e) (hm : m ≠ 0) (hrest : Stops continues rest) :
    ∃ d, Spells (writeShortest .plain m e ++ rest) d rest ∧ d.toFloat negative = x := by
  obtain ⟨-, -, -, hbits⟩ := form_bounds hx
  have hcoefficient := coefficient_shortest_ne_zero hx hm
  have hshortest := Decimal.toFloat_shortest negative m e
  rw [scaled_of_form hx, ← hbits] at hshortest
  rw [writeShortest]
  generalize Decimal.shortest m e = d at hcoefficient hshortest
  obtain ⟨c, exponent⟩ := d
  dsimp only at hcoefficient ⊢
  obtain ⟨n, hn⟩ := exists_eq_dropTrailingZeros (Text.ofNat c)
  generalize dropTrailingZeros (Text.ofNat c) = ds at hn ⊢
  have hlead := head?_ofNat_ne hcoefficient
  have hdigits := isDigit_of_mem_ofNat c
  have hvalue := digitsValue_ofNat c
  have hnonempty := ofNat_ne_nil c
  rw [hn] at hlead hdigits hvalue hnonempty ⊢
  have hne : ds ≠ [] := by
    rintro rfl
    cases n with
    | zero => exact hnonempty rfl
    | succ n => exact hlead rfl
  rw [List.head?_append_of_ne_nil _ hne] at hlead
  rw [digitsValue_append, digitsValue_zeros, Nat.add_zero, zeros, List.length_replicate] at hvalue
  obtain ⟨d, hspells, hd⟩ := spellsAt_layout (exponent + (ds ++ zeros n).length)
    (List.forall_mem_append.mp hdigits).1 hne hlead hrest
  refine ⟨d, hspells, ?_⟩
  rw [hd negative, ← hshortest, ← hvalue, Decimal.toFloat_shift]
  congr 2
  rw [List.length_append, zeros, List.length_replicate]
  omega

/-- A number that can be told is written with digits, behind a sign if it is negative. -/
theorem exists_writeNumber (hx : Expressible x) (hrest : Stops continues rest) :
    ∃ negative t d, writeNumber x ++ rest = (if negative then unit '-' :: t else t) ∧
      Spells t d rest ∧ d.toFloat negative = x := by
  obtain ⟨negative, m, e, hform, hsign⟩ := hx
  rw [writeNumber, hform]
  dsimp only
  rw [Number.write, hform]
  cases m with
  | zero =>
    obtain ⟨-, -, hleast, hbits⟩ := form_bounds hform
    have he : e = leastExponent := hleast.resolve_right (by decide)
    rw [hsign rfl, he] at hbits
    refine ⟨false, "0" ++ rest, ⟨0, 0⟩, by rw [hsign rfl]; rfl, ?_, hbits.symm⟩
    exact spells_whole (List.forall_mem_singleton.mpr (by decide)) (List.cons_ne_nil _ _)
      (.inr rfl) hrest
  | succ m =>
    obtain ⟨d, hspells, hd⟩ := exists_spells_writeShortest hform m.succ_ne_zero hrest
    refine ⟨negative, _, d, ?_, hspells, hd⟩
    cases negative <;> rfl

/-- Numbers are read back from their text. -/
theorem readNumber_writeNumber (hx : Expressible x) (hrest : Stops continues rest) :
    readNumber (writeNumber x ++ rest) = .ok (x, rest) := by
  obtain ⟨negative, t, d, htext, hspells, hd⟩ := exists_writeNumber hx hrest
  rw [htext, hspells.readNumber, hd]

theorem exists_head_writeNumber (hx : Expressible x) (hrest : Stops continues rest) :
    ∃ u s, writeNumber x ++ rest = u :: s ∧ (isDigit u || u = unit '-') = true := by
  obtain ⟨negative, t, d, htext, hspells, -⟩ := exists_writeNumber hx hrest
  obtain ⟨u, s, rfl, hu⟩ := hspells.isDigit_head
  rw [htext]
  cases negative with
  | false => exact ⟨u, s, rfl, by rw [hu]; rfl⟩
  | true => exact ⟨_, _, rfl, by decide⟩

end Written

end Json

end Lox
