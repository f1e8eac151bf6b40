import Lox.Proofs.Resolution.Parsed
import Lox.Proofs.Session.Rekeyed

/-! What a session remembers. Inputs that are refused use up keys, others take keys from the same
supply, and a reset gives none back; nothing that a user sees depends on that. A session goes on as
one that was given only the inputs since the last reset that passed parsing and resolving. -/

namespace Lox.Session

/-- What is done with a session, or beside it. -/
inductive Step where
  /-- An input is run, and `clock` says what its calls read. -/
  | run (clock : Clock) (input : Text)
  | reset
  /-- Programs of others get keys from the same supply. -/
  | elsewhere (keys : Nat)

def step (work : Nat) (s : Session) : Step → Option Session
  | .run clock input => (s.run (.standard clock) work input).map Answer.session
  | .reset => some s.reset
  | .elsewhere keys => some { s with nextKey := s.nextKey + keys }

/-- The session after a history, unless one of its inputs needs more work. -/
def steps (work : Nat) (s : Session) (history : List Step) : Option Session :=
  history.foldlM (step work) s

/-- What can be seen of an answer: how the input ended, what was written, and the variables that the
user has then. -/
def Answer.seen (a : Answer) : Bool × Transcript × List Text :=
  (a.ok, a.transcript, a.session.describe)

/-- What can be seen of the answers to inputs that are given one after the other. -/
def answers (work : Nat) (s : Session) :
    List (Clock × Text) → Option (List (Bool × Transcript × List Text))
  | [] => some []
  | (clock, input) :: rest =>
    match s.run (.standard clock) work input with
    | none => none
    | some a => (answers work a.session rest).map (a.seen :: ·)

def remember (resolves : Bool) (kept : List Step) : Step → List Step
  | .reset => []
  | .elsewhere _ => kept
  | .run clock input => if passes resolves input then kept ++ [.run clock input] else kept

/-- The inputs of a history since the last reset that pass. -/
def remembered (resolves : Bool) (history : List Step) : List Step :=
  history.foldl (remember resolves) []

variable {s s' : Session}

private theorem Alike.answers (h : s.Alike s') (work : Nat) (inputs : List (Clock × Text)) :
    s.answers work inputs = s'.answers work inputs := by
  induction inputs generalizing s s' with
  | nil => rfl
  | cons first rest ih =>
    obtain ⟨clock, input⟩ := first
    have hrun := h.run (Host.uniform_standard clock) work input
    rw [Session.answers, Session.answers]
    generalize s.run (.standard clock) work input = found at hrun
    generalize s'.run (.standard clock) work input = found' at hrun
    cases hrun with
    | none => rfl
    | @some a a' ha =>
      have hseen : a.seen = a'.seen := by
        unfold Answer.seen
        rw [ha.ok, ha.transcript, ha.session.describe_eq]
      dsimp only
      rw [hseen, ih ha.session]

/-- The session is like one that was given only the kept inputs. -/
def Replayed (resolves : Bool) (k work : Nat) (kept : List Step) (s : Session) : Prop :=
  s.resolves = resolves ∧ ∃ s', (fresh resolves k).steps work kept = some s' ∧ s.Alike s'

theorem steps_cons {work : Nat} {first : Step} {rest : List Step} :
    s.steps work (first :: rest) = some s' ↔
      ∃ middle, s.step work first = some middle ∧ middle.steps work rest = some s' := by
  unfold steps
  rw [List.foldlM_cons]
  exact Option.bind_eq_some_iff

private theorem steps_append_run (s : Session) (work : Nat) (history : List Step)
    (clock : Clock) (input : Text) : s.steps work (history ++ [.run clock input]) =
      (s.steps work history).bind fun t =>
        (t.run (.standard clock) work input).map Answer.session := by
  unfold steps
  rw [List.foldlM_append]
  simp only [List.foldlM_cons, List.foldlM_nil, bind_pure]
  rfl

/-- It stays so with every step, if the step is remembered. -/
theorem Replayed.step {resolves : Bool} {k work : Nat} {kept : List Step} {s t : Session}
    {last : Step} (h : Replayed resolves k work kept s) (hlast : s.step work last = some t) :
    Replayed resolves k work (remember resolves kept last) t := by
  obtain ⟨hresolves, s', hs', halike⟩ := h
  cases last with
  | reset =>
    -- the supply of keys goes on, so the new session has other first keys than a fresh one
    cases hlast
    unfold reset
    rw [hresolves]
    exact ⟨rfl, _, rfl, alike_fresh resolves s.nextKey k⟩
  | elsewhere keys =>
    cases hlast
    exact ⟨hresolves, s', hs', halike.skip (Nat.le_add_right ..) (Nat.le_refl _)⟩
  | run clock input =>
    obtain ⟨a, ha, rfl⟩ := Option.map_eq_some_iff.mp hlast
    refine ⟨(resolves_of_run ha).trans hresolves, ?_⟩
    cases hpasses : passes resolves input with
    | false =>
      have hkept : remember resolves kept (.run clock input) = kept := by simp [remember, hpasses]
      rw [← hresolves] at hpasses
      obtain ⟨b, hb, hsession⟩ := halike.run_refused hpasses (.standard clock) work
      cases ha.symm.trans hb
      rw [hkept]
      exact ⟨s', hs', hsession⟩
    | true =>
      have hkept : remember resolves kept (.run clock input) = kept ++ [.run clock input] := by
        simp [remember, hpasses]
      have hrun := halike.run (Host.uniform_standard clock) work input
      rw [ha] at hrun
      rw [hkept, steps_append_run, hs', Option.bind_some]
      generalize s'.run (.standard clock) work input = found' at hrun
      cases hrun with
      | some hanswers => exact ⟨_, rfl, hanswers.session⟩

private theorem Replayed.steps {resolves : Bool} {k work : Nat} {kept history : List Step}
    {s t : Session} (h : Replayed resolves k work kept s) (hsteps : s.steps work history = some t) :
    Replayed resolves k work (history.foldl (remember resolves) kept) t := by
  induction history generalizing kept s with
  | nil =>
    cases hsteps
    exact h
  | cons first rest ih =>
    obtain ⟨middle, hfirst, hrest⟩ := steps_cons.mp hsteps
    exact ih (h.step hfirst) hrest

/-- No inputs tell the two sessions apart. -/
def Indistinct (s s' : Session) : Prop :=
  s.describe = s'.describe ∧ ∀ work inputs, s.answers work inputs = s'.answers work inputs

private theorem Alike.indistinct {s s' : Session} (h : s.Alike s') : s.Indistinct s' :=
  ⟨h.describe_eq, h.answers⟩

/-- A session remembers only what it should: after any inputs and resets it answers as a new session
does that was given only the inputs since the last reset that pass, and a further input that does
not pass leaves no trace in it. -/
theorem remembers_passed (resolves : Bool) (k k' work : Nat) (history : List Step) {s : Session}
    (h : (fresh resolves k).steps work history = some s) :
    (∃ s', (fresh resolves k').steps work (remembered resolves history) = some s' ∧
      s.Indistinct s') ∧
    ∀ host input, passes resolves input = false →
      ∃ a, s.run host work input = some a ∧ a.session.Indistinct s := by
  have hstart : Replayed resolves k' work [] (fresh resolves k) :=
    ⟨rfl, _, rfl, alike_fresh resolves k k'⟩
  obtain ⟨hresolves, s', hs', halike⟩ := hstart.steps h
  refine ⟨⟨s', hs', halike.indistinct⟩, fun host input hpasses => ?_⟩
  rw [← hresolves] at hpasses
  obtain ⟨a, ha, hrefused⟩ := halike.run_refused hpasses host work
  obtain ⟨hdescribe, hanswers⟩ := hrefused.indistinct
  obtain ⟨hdescribe', hanswers'⟩ := halike.indistinct
  refine ⟨a, ha, hdescribe.trans hdescribe'.symm, fun work' inputs => ?_⟩
  rw [hanswers, hanswers']

/-- Two inputs of five are remembered, one of which has failed when it ran. -/
theorem remembers_passed_failing :
    let at0 : Clock := .stopped 0
    let history : List Step := [.run at0 "var a = 1;", .reset, .run at0 "var a = ;", .elsewhere 5,
      .run at0 "fun f(n) \x7b return n; \x7d", .run at0 "\x7b var a; var a; \x7d",
      .run at0 "-f(a);"]
    (remembered true history).length = 2 ∧
      ∃ s s', (fresh true 0).steps 20 history = some s ∧
        (fresh true 7).steps 20 (remembered true history) = some s' ∧ s.Indistinct s' := by
  intro at0 history
  have hsome : ((fresh true 0).steps 20 history).isSome = true := by decide +kernel
  obtain ⟨s, hs⟩ := Option.isSome_iff_exists.mp hsome
  obtain ⟨⟨s', hs', hindistinct⟩, -⟩ := remembers_passed true 0 7 20 history hs
  exact ⟨by decide +kernel, s, s', hs, hs', hindistinct⟩

end Lox.Session
