import Lox.Proofs.Parse.FollowProgram
import Lox.Proofs.Parse.FreshProgram

/-! The keys of a text that is read. Without them the tree is the tree of places, wherever the
supply of keys starts. -/

namespace Lox

section

variable {σ σ' ν ν' : Type} [Supply σ Position ν] [Supply σ' Position ν']

/-- Supplies that keep in step without moving places give the same reading, but for the notes. -/
theorem parseWith_step {v : Supply.Step σ σ'} (hplace : v.position = id) (supply : σ)
    (source : Text) : parseWith (v.left supply) source =
      let parsed := parseWith supply source
      (⟨Program.map v.note parsed.1.program, parsed.1.errors⟩, v.left parsed.2) := by
  have hmove := Parse.parseTokensWith_move v supply (scan source).tokens (scan source).stop
  have htoken : Token.move id = id := rfl
  have herror : SourceError.move id = id := rfl
  simp only [hplace, htoken, herror, List.map_id, id_eq] at hmove
  simp only [parseWith, hmove]

end

section

variable {k : Nat} {source : Text}

/-- Without the keys, the tree is the tree of places. -/
theorem map_parseKeyed (k : Nat) (source : Text) :
    Program.map Keyed.location (parseKeyed k source).1.program =
      Program.map .ofPosition (parse source).program := by
  have hplain : parse source = ⟨Program.map Keyed.location (parseWith k source).1.program, _⟩ :=
    congrArg Prod.fst (parseWith_step (v := .unkeyed) rfl k source)
  rw [hplain, Program.map_map]
  exact Program.map_map _ _ _

theorem errors_parseKeyed (k : Nat) (source : Text) :
    (parseKeyed k source).1.errors = (parse source).errors := by
  have hplain := congrArg Prod.fst (parseWith_step (v := .unkeyed) rfl k source)
  exact (congrArg Parsed.errors hplain).symm

/-- Every node of a text, with errors in it or without, has a key of its own from the supply. -/
theorem drawn_parseKeyed (k : Nat) (source : Text) :
    Drawn k (parseKeyed k source).2 (Program.notes (parseKeyed k source).1.program) := by
  have hdrawn := drawn_parseTokensWith k (scan source).tokens (scan source).stop
  let node (n : Keyed Position) : Node := ⟨n.key, n.location⟩
  have hnotes := hdrawn.map (f := node) fun _ => rfl
  rw [← Program.notes_map] at hnotes
  exact hnotes

/-- A text without errors has the same tree in both ways, but for the keys. -/
theorem exists_parse?_of_parseKeyed? {p : Program Node} (h : parseKeyed? k source = .ok p) :
    ∃ q, parse? source = .ok q ∧
      Program.map Keyed.location p = Program.map .ofPosition q := by
  obtain ⟨herrors, rfl⟩ := Parsed.program?_eq_ok.mp h
  rw [errors_parseKeyed] at herrors
  exact ⟨_, parse?_eq_ok.mpr ⟨herrors, rfl⟩, map_parseKeyed k source⟩

theorem exists_parseKeyed?_of_parse? {q : Program Position} (h : parse? source = .ok q) (k : Nat) :
    ∃ p, parseKeyed? k source = .ok p ∧
      Program.map Keyed.location p = Program.map .ofPosition q := by
  obtain ⟨herrors, rfl⟩ := parse?_eq_ok.mp h
  rw [← errors_parseKeyed k] at herrors
  exact ⟨_, Parsed.program?_eq_ok.mpr ⟨herrors, rfl⟩, map_parseKeyed k source⟩

theorem drawn_of_parseKeyed? {p : Program Node} (h : parseKeyed? k source = .ok p) :
    Drawn k (parseKeyed k source).2 (Program.notes p) := by
  obtain ⟨-, rfl⟩ := Parsed.program?_eq_ok.mp h
  exact drawn_parseKeyed k source

theorem nodup_keys_of_parseKeyed? {p : Program Node} (h : parseKeyed? k source = .ok p) :
    (Program.keys p).Nodup :=
  (drawn_of_parseKeyed? h).nodup

end

end Lox
