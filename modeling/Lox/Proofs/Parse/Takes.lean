import Lox.Proofs.Parse.Plain

/-! Steps that read given tokens. What comes after these matters only where a step looks at it. -/

namespace Lox.Parse

variable {α β : Type} {a : α} {b : β} {p q : Parse α} {ts us rest : List Token} {t : Token}
  {kind : TokenKind}

/-- Before `rest`, the step reads exactly `ts` and gives `a`. -/
def Takes (p : Parse α) (a : α) (ts rest : List Token) : Prop :=
  ∀ stop errors, p ⟨ts ++ rest, stop, errors, ()⟩ = (some a, ⟨rest, stop, errors, ()⟩)

/-- The next token is of the given kind. -/
def IsNext (kind : TokenKind) (rest : List Token) : Prop :=
  ∃ t us, rest = t :: us ∧ t.kind = kind

theorem IsNext.cons (h : t.kind = kind) : IsNext kind (t :: rest) :=
  ⟨t, rest, rfl, h⟩

theorem IsNext.notNext {kind' : TokenKind} (h : IsNext kind' rest) (hne : kind' ≠ kind) :
    NotNext kind rest := by
  obtain ⟨t, us, rfl, ht⟩ := h
  intro u hu
  cases hu
  rwa [ht]

theorem takes_pure : Takes (pure a) a [] rest :=
  fun _ _ => rfl

theorem Takes.bind {f : α → Parse β} (hp : Takes p a ts (us ++ rest))
    (hf : Takes (f a) b us rest) : Takes (p >>= f) b (ts ++ us) rest := by
  intro stop errors
  rw [List.append_assoc, bind_of_some (hp stop errors)]
  exact hf stop errors

theorem Takes.bind_last {f : α → Parse β} (hp : Takes p a ts rest)
    (hf : Takes (f a) b [] rest) : Takes (p >>= f) b ts rest := by
  rw [← List.append_nil ts]
  exact hp.bind hf

theorem Takes.map {f : α → β} (hp : Takes p a ts rest) : Takes (f <$> p) (f a) ts rest := by
  rw [map_eq_pure_bind]
  exact hp.bind_last takes_pure

theorem takes_acceptWith {γ : Type} {select : TokenKind → Option γ} {c : γ}
    {f : Option (γ × Token) → Parse β} (h : select t.kind = some c)
    (hf : Takes (f (some (c, t))) b ts rest) :
    Takes (acceptWith select >>= f) b (t :: ts) rest := by
  intro stop errors
  have htaken : acceptWith select ⟨t :: (ts ++ rest), stop, errors, ()⟩ =
      (some (some (c, t)), ⟨ts ++ rest, stop, errors, ()⟩) := by
    simp [acceptWith, h]
  rw [List.cons_append, bind_of_some htaken]
  exact hf stop errors

theorem takes_acceptWith_none {γ : Type} {select : TokenKind → Option γ}
    {f : Option (γ × Token) → Parse β}
    (h : ∀ t, (ts ++ rest).head? = some t → select t.kind = none)
    (hf : Takes (f none) b ts rest) : Takes (acceptWith select >>= f) b ts rest := by
  intro stop errors
  have htaken : acceptWith select ⟨ts ++ rest, stop, errors, ()⟩ =
      (some none, ⟨ts ++ rest, stop, errors, ()⟩) := by
    cases hr : ts ++ rest with
    | nil => rfl
    | cons u us =>
      have hu : select u.kind = none := h u (by rw [hr]; rfl)
      simp [acceptWith, hu]
  rw [bind_of_some htaken]
  exact hf stop errors

theorem takes_accept {f : Option Token → Parse β} (h : t.kind = kind)
    (hf : Takes (f (some t)) b ts rest) : Takes (accept kind >>= f) b (t :: ts) rest := by
  simp only [accept, bind_assoc, pure_bind]
  exact takes_acceptWith (c := ()) (by simp [h]) hf

theorem takes_accept_none {f : Option Token → Parse β} (h : NotNext kind (ts ++ rest))
    (hf : Takes (f none) b ts rest) : Takes (accept kind >>= f) b ts rest := by
  simp only [accept, bind_assoc, pure_bind]
  refine takes_acceptWith_none (fun t ht => ?_) hf
  simpa using h t ht

theorem takes_expect {f : Token → Parse β} {e : Expectation} (h : t.kind = kind)
    (hf : Takes (f t) b ts rest) : Takes (expect kind e >>= f) b (t :: ts) rest := by
  simp only [expect, bind_assoc]
  refine takes_accept h ?_
  simpa using hf

theorem takes_then {c : Prop} [Decidable c] (h : c) (hp : Takes p a ts rest) :
    Takes (if c then p else q) a ts rest := by
  rwa [if_pos h]

theorem takes_else {c : Prop} [Decidable c] (h : ¬ c) (hq : Takes q a ts rest) :
    Takes (if c then p else q) a ts rest := by
  rwa [if_neg h]

theorem takes_check {f : Bool → Parse β} (h : IsNext kind (ts ++ rest))
    (hf : Takes (f true) b ts rest) : Takes (check kind >>= f) b ts rest := by
  intro stop errors
  obtain ⟨t, us, hts, ht⟩ := h
  have hfound :
      check kind ⟨ts ++ rest, stop, errors, ()⟩ = (some true, ⟨ts ++ rest, stop, errors, ()⟩) := by
    rw [hts]
    simp [check, ht]
  rw [bind_of_some hfound]
  exact hf stop errors

theorem takes_check_not {f : Bool → Parse β} (h : NotNext kind (ts ++ rest))
    (hf : Takes (f false) b ts rest) : Takes (check kind >>= f) b ts rest := by
  intro stop errors
  have hfound : check kind ⟨ts ++ rest, stop, errors, ()⟩ =
      (some false, ⟨ts ++ rest, stop, errors, ()⟩) := by
    cases hts : ts ++ rest with
    | nil => rfl
    | cons t us =>
      have ht : t.kind ≠ kind := h t (by rw [hts]; rfl)
      simp [check, ht]
  rw [bind_of_some hfound]
  exact hf stop errors

theorem takes_atEnd {f : Bool → Parse β} (hf : Takes (f (ts ++ rest).isEmpty) b ts rest) :
    Takes (atEnd >>= f) b ts rest :=
  hf

theorem takes_place {f : Position → Parse β} (h : (ts ++ rest).head? = some t)
    (hf : Takes (f t.position) b ts rest) : Takes (place >>= f) b ts rest := by
  intro stop errors
  have hplace : place ⟨ts ++ rest, stop, errors, ()⟩ =
      (some t.position, ⟨ts ++ rest, stop, errors, ()⟩) := by
    simp [place, h]
  rw [bind_of_some hplace]
  exact hf stop errors

theorem takes_operandToken {f : Option (Expr Position) → Parse β} {e : Expr Position}
    (h : t.operand? t.position = some e) (hf : Takes (f (some e)) b ts rest) :
    Takes (operandToken >>= f) b (t :: ts) rest := by
  intro stop errors
  have htaken : operandToken ⟨t :: (ts ++ rest), stop, errors, ()⟩ =
      (some (some e), ⟨ts ++ rest, stop, errors, ()⟩) := by
    simp [operandToken, h]
  rw [List.cons_append, bind_of_some htaken]
  exact hf stop errors

theorem takes_operandToken_none {f : Option (Expr Position) → Parse β}
    (h : t.operand? t.position = none)
    (hf : Takes (f none) b (t :: ts) rest) : Takes (operandToken >>= f) b (t :: ts) rest := by
  intro stop errors
  have htaken : operandToken ⟨t :: (ts ++ rest), stop, errors, ()⟩ =
      (some none, ⟨t :: (ts ++ rest), stop, errors, ()⟩) := by
    simp [operandToken, h]
  rw [List.cons_append, bind_of_some htaken]
  exact hf stop errors

theorem takes_recovering (h : Takes p a ts rest) : Takes (recovering p) (some a) ts rest := by
  intro stop errors
  simp [recovering, h stop errors]

end Lox.Parse
