import Lox.Parse.Program
import Lox.Proofs.Tree.Loop

/-! How to reason about the steps of a parser. A triple says what a step has read if it reports no
error; the other direction says that a step reads given tokens when others follow them. -/

namespace Lox

theorem Cursor.resume_errors {σ : Type} (c : Cursor σ) : c.resume.errors = c.errors := by
  cases hc : c.rest <;> simp [resume, hc]

/-- A text has a program if it has no errors. -/
theorem Parsed.program?_eq_ok {ν : Type} {parsed : Parsed ν} {p : Program ν} :
    parsed.program? = .ok p ↔ parsed.errors = [] ∧ parsed.program = p := by
  unfold program?
  split
  · rename_i herrors
    simp [List.isEmpty_iff.mp herrors]
  · rename_i herrors
    simp [mt List.isEmpty_iff.mpr herrors]

theorem parse?_eq_ok {source : Text} {q : Program Position} :
    parse? source = .ok q ↔ (parse source).errors = [] ∧ (parse source).program = q :=
  Parsed.program?_eq_ok

end Lox

namespace Lox.Parse

variable {α β : Type} {P : List Token → Prop} {Q : α → List Token → Prop}
  {R : β → List Token → Prop}

instance {σ : Type} : LawfulMonad (Parser σ) := by
  refine LawfulMonad.mk' (Parser σ) (fun p => ?_) (fun _ _ => rfl) (fun p f g => ?_)
  · funext c
    show (p >>= fun a => pure a) c = p c
    cases h : p c with
    | mk result c' => cases result <;> simp only [bind, pure, h]
  · funext c
    cases h : p c with
    | mk result c' => cases result <;> simp only [bind, h]

/-! Nodes that have no more than a place are made at no cost. -/

@[simp] theorem draw_plain (p : Position) : (draw p : Parse Position) = pure p := rfl

@[simp] theorem forLoop_plain (start : Position) (initializer : Option (Stmt Position))
    (condition : Expr Position) (increment : Option (Expr Position)) (body : Stmt Position) :
    (forLoop start initializer condition increment body : Parse (Stmt Position)) =
      pure (.forLoop start initializer condition increment body) := by
  cases increment <;> cases initializer <;> rfl

/-- Reported errors stay reported. If `p` reports none on tokens of which `P` holds, it reads
something, and `Q` holds of that and of the tokens it leaves. -/
structure Triple (P : List Token → Prop) (p : Parse α) (Q : α → List Token → Prop) : Prop where
  grows : ∀ c, c.errors <+: (p c).2.errors
  reads : ∀ c, P c.rest → (p c).2.errors = c.errors →
    ∃ a rest, p c = (some a, { c with rest := rest }) ∧ Q a rest

namespace Triple

/-- What holds of every result of a step may be assumed of it. -/
theorem bind_of {p : Parse α} {f : α → Parse β} {C : α → Prop} (hp : Triple P p Q)
    (hC : ∀ c a c', p c = (some a, c') → C a) (hf : ∀ a, C a → Triple (Q a) (f a) R) :
    Triple P (p >>= f) R := by
  constructor
  · intro c
    cases h : p c with
    | mk result c' =>
      have hc : c.errors <+: c'.errors := by simpa [h] using hp.grows c
      cases result with
      | none => rwa [Parse.bind_of_none h]
      | some a =>
        rw [Parse.bind_of_some h]
        exact hc.trans ((hf a (hC _ _ _ h)).grows c')
  · intro c hP hsame
    cases h : p c with
    | mk result c' =>
      have hc : c.errors <+: c'.errors := by simpa [h] using hp.grows c
      have hc' : c'.errors = c.errors := by
        cases result with
        | none => rwa [Parse.bind_of_none h] at hsame
        | some a =>
          rw [Parse.bind_of_some h] at hsame
          exact (hsame ▸ (hf a (hC _ _ _ h)).grows c').eq_of_length_le hc.length_le
      obtain ⟨a, rest, hr, hQ⟩ := hp.reads c hP (by rw [h]; exact hc')
      rw [Parse.bind_of_some hr] at hsame ⊢
      exact (hf a (hC _ _ _ hr)).reads _ hQ hsame

theorem bind {p : Parse α} {f : α → Parse β} (hp : Triple P p Q)
    (hf : ∀ a, Triple (Q a) (f a) R) : Triple P (p >>= f) R :=
  hp.bind_of (C := fun _ => True) (fun _ _ _ _ => trivial) fun a _ => hf a

theorem pure {a : α} (h : ∀ rest, P rest → Q a rest) : Triple P (pure a) Q :=
  ⟨fun _ => List.prefix_rfl, fun c hP _ => ⟨a, c.rest, rfl, h _ hP⟩⟩

theorem weaken {p : Parse α} {P' : List Token → Prop} {Q' : α → List Token → Prop}
    (h : Triple P p Q) (hP : ∀ rest, P' rest → P rest) (hQ : ∀ a rest, Q a rest → Q' a rest) :
    Triple P' p Q' := by
  refine ⟨h.grows, fun c hc hsame => ?_⟩
  obtain ⟨a, rest, hr, hq⟩ := h.reads c (hP _ hc) hsame
  exact ⟨a, rest, hr, hQ _ _ hq⟩

theorem ite {c : Prop} [Decidable c] {p q : Parse α} (hp : c → Triple P p Q)
    (hq : ¬ c → Triple P q Q) : Triple P (if c then p else q) Q := by
  split
  · exact hp ‹_›
  · exact hq ‹_›

end Triple

/-- The next token, if there is one, is not of the given kind. -/
def NotNext (kind : TokenKind) (rest : List Token) : Prop :=
  ∀ t, rest.head? = some t → t.kind ≠ kind

theorem triple_stuck (hP : ∀ rest, ¬ P rest) : Triple P stuck Q :=
  ⟨fun _ => List.prefix_rfl, fun _ h => absurd h (hP _)⟩

theorem triple_check (kind : TokenKind) : Triple P (check kind) fun _ rest => P rest :=
  ⟨fun _ => List.prefix_rfl, fun c hP _ => ⟨_, c.rest, rfl, hP⟩⟩

theorem triple_atEnd : Triple P atEnd fun b rest => P rest ∧ (b → rest = []) :=
  ⟨fun _ => List.prefix_rfl, fun c hP _ => ⟨_, c.rest, rfl, hP, by simp⟩⟩

theorem triple_place :
    Triple P place fun note rest => P rest ∧ ∀ t ts, rest = t :: ts → note = t.position :=
  ⟨fun _ => List.prefix_rfl, fun c hP _ => ⟨_, c.rest, rfl, hP, by rintro t ts h; simp [h]⟩⟩

theorem triple_acceptWith {select : TokenKind → Option α} {f : Option (α × Token) → Parse β}
    (hnone : Triple (fun rest => P rest ∧ ∀ t, rest.head? = some t → select t.kind = none)
      (f none) R)
    (hsome : ∀ a t, select t.kind = some a →
      Triple (fun rest => P (t :: rest)) (f (some (a, t))) R) :
    Triple P (acceptWith select >>= f) R := by
  have accepts : Triple P (acceptWith select) fun taken rest =>
      match taken with
      | some (_, t) => P (t :: rest)
      | none => P rest ∧ ∀ t, rest.head? = some t → select t.kind = none := by
    constructor
    · rintro ⟨_ | ⟨t, rest⟩, stop, errors, _⟩
      · exact List.prefix_rfl
      · cases h : select t.kind <;> simp [acceptWith, h]
    · rintro ⟨_ | ⟨t, rest⟩, stop, errors, _⟩ hP -
      · exact ⟨none, [], rfl, hP, by simp⟩
      · cases h : select t.kind with
        | none => exact ⟨none, t :: rest, by simp [acceptWith, h], hP, by simp [h]⟩
        | some a => exact ⟨some (a, t), rest, by simp [acceptWith, h], hP⟩
  refine accepts.bind_of (C := fun taken => ∀ a t, taken = some (a, t) → select t.kind = some a)
    ?_ fun taken h => ?_
  · rintro ⟨_ | ⟨u, rest⟩, stop, errors, _⟩ taken c' hc a t rfl
    · simp [acceptWith] at hc
    · cases h : select u.kind <;> simp [acceptWith, h] at hc
      obtain ⟨⟨rfl, rfl⟩, -⟩ := hc
      exact h
  · cases taken with
    | none => exact hnone
    | some taken => exact hsome _ _ (h _ _ rfl)

theorem triple_accept {kind : TokenKind} {f : Option Token → Parse β}
    (hnone : Triple (fun rest => P rest ∧ NotNext kind rest) (f none) R)
    (hsome : ∀ t, t.kind = kind → Triple (fun rest => P (t :: rest)) (f (some t)) R) :
    Triple P (accept kind >>= f) R := by
  simp only [accept, bind_assoc, pure_bind]
  refine triple_acceptWith (hnone.weaken ?_ fun _ _ => id) fun _ t h => hsome t (by simpa using h)
  rintro rest ⟨hP, h⟩
  exact ⟨hP, fun t ht => by simpa using h t ht⟩

theorem triple_reportAt {Q : Unit → List Token → Prop} (token : Token) (e : Expectation) :
    Triple P (reportAt token e) Q :=
  ⟨fun _ => List.prefix_append .., fun _ _ h => by simp [reportAt] at h⟩

theorem triple_report {Q : Unit → List Token → Prop} (e : Expectation) :
    Triple P (report e) Q := by
  constructor
  · rintro ⟨_ | ⟨t, rest⟩, stop, errors, _⟩ <;> simp [report, reportAt]
  · rintro ⟨_ | ⟨t, rest⟩, stop, errors, _⟩ - h <;> simp [report, reportAt] at h

/-- What is read after a report that stands under a guard is read unreported only outside it. -/
theorem triple_reportWhen {guard : Prop} [Decidable guard] {program : Parse β} (e : Expectation)
    (h : Triple (fun rest => ¬ guard ∧ P rest) program R) :
    Triple P (if guard then report e >>= fun _ => program else program) R := by
  refine Triple.ite (fun _ => ?_) fun hguard => ?_
  · exact (triple_report e).bind fun _ => h
  · exact h.weaken (fun rest hP => ⟨hguard, hP⟩) fun _ _ => id

theorem triple_refuse {f : α → Parse β} (e : Expectation) : Triple P (refuse e >>= f) R := by
  simp only [refuse, bind_assoc]
  refine (triple_report e).bind (Q := fun _ _ => False) fun _ => ?_
  exact triple_stuck fun _ => id

theorem triple_expect {kind : TokenKind} {e : Expectation} {f : Token → Parse β}
    (h : ∀ t, t.kind = kind → Triple (fun rest => P (t :: rest)) (f t) R) :
    Triple P (expect kind e >>= f) R := by
  simp only [expect, bind_assoc]
  refine triple_accept ?_ fun t ht => ?_
  · exact triple_refuse e
  · simpa using h t ht

theorem triple_operandToken {f : Option (Expr Position) → Parse β} (hnone : Triple P (f none) R)
    (hsome : ∀ e,
      Triple (fun rest => ∃ t, t.operand? t.position = some e ∧ P (t :: rest)) (f (some e)) R) :
    Triple P (operandToken >>= f) R := by
  have takes : Triple P operandToken fun taken rest =>
      taken.elim (P rest) fun e => ∃ t, t.operand? t.position = some e ∧ P (t :: rest) := by
    constructor
    · rintro ⟨_ | ⟨t, rest⟩, stop, errors, _⟩
      · exact List.prefix_rfl
      · cases h : t.operand? t.position <;> simp [operandToken, h]
    · rintro ⟨_ | ⟨t, rest⟩, stop, errors, _⟩ hP -
      · exact ⟨none, [], rfl, hP⟩
      · cases h : t.operand? t.position with
        | none => exact ⟨none, t :: rest, by simp [operandToken, h], hP⟩
        | some e => exact ⟨some e, rest, by simp [operandToken, h], t, h, hP⟩
  refine takes.bind fun taken => ?_
  cases taken with
  | none => exact hnone
  | some e => exact hsome e

/-- A step that gives up has reported why, so nothing is dropped silently. -/
theorem triple_recovering {p : Parse α} (h : Triple P p Q) :
    Triple P (recovering p) fun taken rest => ∃ a, taken = some a ∧ Q a rest := by
  constructor
  · intro c
    have := h.grows c
    cases hp : p c with
    | mk result c' => cases result <;> simpa [recovering, hp, Cursor.resume_errors] using this
  · intro c hP hsame
    have hsame : (p c).2.errors = c.errors := by
      cases hp : p c with
      | mk result c' => cases result <;> simpa [recovering, hp, Cursor.resume_errors] using hsame
    obtain ⟨a, rest, hr, hQ⟩ := h.reads c hP hsame
    exact ⟨some a, rest, by simp [recovering, hr], a, rfl, hQ⟩

end Lox.Parse
