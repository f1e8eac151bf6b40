import Lox.Proofs.Parse.Keys
import Lox.Proofs.Resolution.Rekeyed
import Lox.Session.Basic

/-! Which inputs a session runs. Whether an input passes, and what there is to complain about,
depends neither on what the session has seen before nor on the keys that the input's nodes get. -/

namespace Lox.Session

/-- Whether an input passes parsing and, where inputs are resolved, resolving. -/
def passes (resolves : Bool) (input : Text) : Bool :=
  let parsed := (parseKeyed firstKey input).1
  parsed.errors.isEmpty && !(resolves && (resolve [] false parsed.program).hasErrors)

/-- The resolutions that a session adds for a program that may run. -/
def found (resolves : Bool) (program : Program Node) : ResolutionTable :=
  if resolves then (resolve [] false program).table else ∅

/-- What there is to complain about an input, whichever session is asked. -/
def complaints (resolves : Bool) (parsed : Parsed Node) : Transcript :=
  if parsed.errors.isEmpty then
    if resolves then
      (resolve [] false parsed.program).diagnostics.map fun d => .complained ("  " ++ d.line)
    else []
  else parsed.errors.map fun e => .complained (errorLine e)

section

variable (resolves : Bool)

/-- Both tables say the same of an access that has two keys. -/
theorem found_twin {t : Program Twin} (hkeys : (Program.keys (Program.map Twin.left t)).Nodup)
    (hkeys' : (Program.keys (Program.map Twin.right t)).Nodup) {a : Access Twin}
    (ha : a ∈ Program.accesses t) :
    (found resolves (Program.map Twin.left t))[a.note.key]? =
      (found resolves (Program.map Twin.right t))[a.note.key']? := by
  cases resolves with
  | false => simp [found]
  | true => exact table_twin hkeys hkeys' ha

theorem getElem?_found_eq_none {p : Program Node} {key : Nat} (h : key ∉ Program.keys p) :
    (found resolves p)[key]? = none := by
  cases resolves with
  | false => simp [found]
  | true => exact getElem?_resolve_eq_none h

private theorem vet_eq (s : Session) (parsed : Parsed Node) :
    s.vet parsed.errors parsed.program =
      if (complaints s.resolves parsed).isEmpty then .ok (found s.resolves parsed.program)
      else .error (complaints s.resolves parsed) := by
  unfold vet complaints
  cases herrors : parsed.errors.isEmpty with
  | true =>
    cases hresolves : s.resolves with
    | false => rfl
    | true =>
      have hdiagnostics :
          (resolve (s.state.store.names s.globals) false parsed.program).diagnostics =
          (resolve [] false parsed.program).diagnostics := by
        rw [resolve_unreported, resolve_unreported]
      simp only [if_true, Resolved.hasErrors, hdiagnostics, List.isEmpty_map, found, table_resolve]
      cases (resolve [] false parsed.program).diagnostics.isEmpty <;> rfl
  | false =>
    simp only [Bool.false_eq_true, if_false, List.isEmpty_map, herrors]

/-- What there is to complain about an input does not depend on the keys of its nodes. -/
theorem complaints_parseKeyed (k k' : Nat) (input : Text) :
    complaints resolves (parseKeyed k input).1 = complaints resolves (parseKeyed k' input).1 := by
  have hplaces := (map_parseKeyed k' input).trans (map_parseKeyed k input).symm
  obtain ⟨t, hleft, hright⟩ := Program.exists_twin hplaces
  have hkeys : (Program.keys (Program.map Twin.left t)).Nodup :=
    hleft ▸ (drawn_parseKeyed k' input).nodup
  unfold complaints
  rw [errors_parseKeyed, errors_parseKeyed, ← hleft, ← hright, resolve_twin hkeys]

private theorem passes_eq (k : Nat) (input : Text) :
    passes resolves input = (complaints resolves (parseKeyed k input).1).isEmpty := by
  rw [complaints_parseKeyed resolves k firstKey]
  unfold passes complaints
  dsimp only
  cases herrors : (parseKeyed firstKey input).1.errors.isEmpty with
  | true =>
    cases resolves with
    | false => rfl
    | true =>
      simp only [if_true, Resolved.hasErrors, List.isEmpty_map, Bool.true_and, Bool.not_not]
  | false =>
    simp only [Bool.false_eq_true, if_false, List.isEmpty_map, herrors, Bool.false_and]

end

/-- An input that passes runs; one that does not only uses up keys. -/
theorem run_eq (s : Session) (host : Host) (work : Nat) (input : Text) :
    let parsed := (parseKeyed s.nextKey input).1
    let nextKey := (parseKeyed s.nextKey input).2
    s.run host work input =
      if passes s.resolves input then
        s.runProgram host work parsed.program (s.table.merge (found s.resolves parsed.program))
          nextKey
      else some ⟨false, complaints s.resolves parsed, { s with nextKey := nextKey }⟩ := by
  intro parsed nextKey
  unfold run
  rw [passes_eq s.resolves s.nextKey]
  dsimp only
  rw [vet_eq]
  cases (complaints s.resolves (parseKeyed s.nextKey input).1).isEmpty <;> rfl

theorem resolves_of_run {s : Session} {host : Host} {work : Nat} {input : Text} {a : Answer}
    (h : s.run host work input = some a) : a.session.resolves = s.resolves := by
  rw [run_eq] at h
  split at h
  · unfold runProgram at h
    dsimp only at h
    split at h
    · cases h
      rfl
    · cases h
      rfl
    · cases h
  · cases h
    rfl

end Lox.Session
