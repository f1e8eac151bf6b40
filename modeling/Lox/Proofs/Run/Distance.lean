import Lox.Proofs.Run.Forest

/-! Variables by distance. The search for a name and the walk of a given number of links meet at the
nearest environment that has the name; elsewhere the walk finds what the environment at its end has,
and nothing instead of it. -/

namespace Lox

/-- So many links lead from `env` out to `found`. No link leads out of an environment that nothing
is around. -/
inductive Links : Environment → Nat → Environment → Prop
  | none {i : Nat} {outer : Environment} : Links (i :: outer) 0 (i :: outer)
  | further {i d : Nat} {outer found : Environment} : Links outer d found →
    Links (i :: outer) (d + 1) found

section

variable {env found : Environment} {d : Nat}

/-- The walk drops a frame with each link, and fails when none is left. -/
theorem links_iff : Links env d found ↔ env.drop d = found ∧ found ≠ [] := by
  constructor
  · intro h
    induction h with
    | none => exact ⟨rfl, List.cons_ne_nil _ _⟩
    | further _ ih => exact ih
  · rintro ⟨hdrop, hfound⟩
    induction env generalizing d with
    | nil =>
      rw [List.drop_nil] at hdrop
      exact absurd hdrop.symm hfound
    | cons i outer ih =>
      cases d with
      | zero =>
        subst hdrop
        exact .none
      | succ d =>
        apply Links.further
        exact ih hdrop

private theorem Links.lt_length (h : Links env d found) : d < env.length := by
  obtain ⟨hdrop, hfound⟩ := links_iff.mp h
  rw [← hdrop] at hfound
  exact Nat.lt_of_not_le fun hle => hfound (List.drop_eq_nil_of_le hle)

end

namespace Store

variable {s : Store} {x : Name} {env found : Environment} {d : Nat}

/-- The value that an environment itself has for a name, whatever is around it. -/
def own? (s : Store) (x : Name) : Environment → Option Value
  | [] => none
  | i :: _ => (s.frame i).lookup x

private theorem own?_isSome : (s.own? x found).isSome ↔ x ∈ s.names found := by
  cases found with
  | nil => simp [own?, names]
  | cons i outer => exact binds_iff

/-- The walk stops at the environment at its end if that has the name. -/
theorem holderAt?_of_links (hlinks : Links env d found) (hx : x ∈ s.names found) :
    ∃ i outer, found = i :: outer ∧ s.holderAt? x env d = some i := by
  obtain ⟨hdrop, hfound⟩ := links_iff.mp hlinks
  obtain ⟨i, outer, rfl⟩ := List.exists_cons_of_ne_nil hfound
  have hbinds : s.binds i x := binds_iff.mpr hx
  refine ⟨i, outer, rfl, ?_⟩
  unfold holderAt?
  rw [hdrop]
  exact if_pos hbinds

/-- It finds nothing if there are fewer links, or the environment at its end lacks the name. -/
theorem holderAt?_eq_none (h : ¬ ∃ found, Links env d found ∧ x ∈ s.names found) :
    s.holderAt? x env d = none := by
  unfold holderAt?
  cases hdrop : env.drop d with
  | nil => rfl
  | cons i outer =>
    have hlinks : Links env d (i :: outer) := links_iff.mpr ⟨hdrop, List.cons_ne_nil i outer⟩
    have hbinds : ¬ s.binds i x := by
      intro hbinds
      apply h
      exact ⟨i :: outer, hlinks, binds_iff.mp hbinds⟩
    exact if_neg hbinds

/-- From the distance of the nearest environment that has the name, search and walk are one. -/
theorem Nearest.holderAt?_eq (hnearest : s.Nearest x env found) (hlinks : Links env d found) :
    s.holderAt? x env d = s.holder? x env := by
  obtain ⟨i, outer, rfl, hi⟩ := hnearest.holder?
  have hx : x ∈ s.names (i :: outer) := binds_iff.mp (binds_of_holder? hi)
  obtain ⟨j, outer', hsame, hj⟩ := holderAt?_of_links hlinks hx
  cases hsame
  rw [hi, hj]

/-- The search fails if no environment that links lead to has the name. -/
theorem holder?_eq_none (h : ∀ d found, Links env d found → x ∉ s.names found) :
    s.holder? x env = none := by
  induction env with
  | nil => rfl
  | cons i outer ih =>
    have hi : ¬ s.binds i x := mt binds_iff.mp (h 0 _ .none)
    have houter : s.holder? x outer = none := by
      apply ih
      intro d found hlinks
      exact h (d + 1) found (.further hlinks)
    rw [holder?, if_neg hi, houter]

end Store

namespace Forest

/-- Access by distance against search along the chain. At the distance of the nearest environment
that has the name, both read the same and both assignments leave the same. At any distance the walk
reads or changes the variable of the environment that so many links lead to, if that has one;
otherwise it fails and changes nothing, whatever other environments have. If no environment of the
chain has the name, all four fail with the same error and change nothing. -/
theorem walk_agrees_with_search (f : Forest) (env : Environment) (x : Name) (v : Value)
    (location : Option Location) :
    (∀ d found, f.store.Nearest x env found → Links env d found →
      f.store.get env x location = f.store.getAt env d x location ∧
        f.assign env x v location = f.assignAt env d x v location) ∧
    (∀ d found, Links env d found → x ∈ f.store.names found →
      (∃ w, f.store.own? x found = some w ∧ f.store.getAt env d x location = .ok w) ∧
        f.assignAt env d x v location = (f.define found x v, .ok ())) ∧
    (∀ d, (¬ ∃ found, Links env d found ∧ x ∈ f.store.names found) →
      f.store.getAt env d x location = .error ⟨.undefinedVariable x, location⟩ ∧
        f.assignAt env d x v location = (f, .error ⟨.undefinedVariable x, location⟩)) ∧
    ((∀ d found, Links env d found → x ∉ f.store.names found) →
      f.store.get env x location = .error ⟨.undefinedVariable x, location⟩ ∧
        f.assign env x v location = (f, .error ⟨.undefinedVariable x, location⟩) ∧
        ∀ d, f.store.getAt env d x location = .error ⟨.undefinedVariable x, location⟩ ∧
          f.assignAt env d x v location = (f, .error ⟨.undefinedVariable x, location⟩)) := by
  have hmissing : ∀ d, (¬ ∃ found, Links env d found ∧ x ∈ f.store.names found) →
      f.store.getAt env d x location = .error ⟨.undefinedVariable x, location⟩ ∧
        f.assignAt env d x v location = (f, .error ⟨.undefinedVariable x, location⟩) := by
    intro d hd
    have hnone := Store.holderAt?_eq_none hd
    unfold Forest.assignAt Store.assignAt Store.assignAt? Store.getAt Store.getAt?
    rw [hnone]
    exact ⟨rfl, rfl⟩
  refine ⟨?_, ?_, hmissing, ?_⟩
  · intro d found hnearest hlinks
    have hholder := hnearest.holderAt?_eq hlinks
    unfold Store.get Store.getAt Store.get? Store.getAt?
    unfold Forest.assign Forest.assignAt Store.assign Store.assignAt Store.assign? Store.assignAt?
    rw [hholder]
    exact ⟨rfl, rfl⟩
  · intro d found hlinks hx
    obtain ⟨w, hw⟩ := Option.isSome_iff_exists.mp (Store.own?_isSome.mpr hx)
    obtain ⟨i, outer, rfl, hi⟩ := Store.holderAt?_of_links hlinks hx
    have hlookup : (f.store.frame i).lookup x = some w := hw
    unfold Forest.assignAt Store.assignAt Store.assignAt? Store.getAt Store.getAt?
    rw [hi, Option.bind_some, hlookup]
    exact ⟨⟨w, hw, rfl⟩, rfl⟩
  · intro hnone
    have hsearch := Store.holder?_eq_none hnone
    have hwalk : ∀ d, ¬ ∃ found, Links env d found ∧ x ∈ f.store.names found := by
      rintro d ⟨found, hlinks, hx⟩
      exact hnone d found hlinks hx
    unfold Forest.assign Store.assign Store.assign? Store.get Store.get?
    rw [hsearch]
    exact ⟨rfl, rfl, fun d => hmissing d (hwalk d)⟩

/-- The name is to be had in the chain here and two links out, and at no other distance. -/
theorem walk_agrees_with_search_shadowed :
    let env : Environment := [2, 1, 0]
    let f := (((Forest.empty.fresh.child [0]).child [1, 0]).define [0] "a" .nil).define env "a"
      (.bool true)
    f.store.get env "a" none = f.store.getAt env 0 "a" none ∧
      f.assignAt env 2 "a" (.bool false) none = (f.define [0] "a" (.bool false), .ok ()) ∧
      f.store.getAt env 1 "a" none = .error ⟨.undefinedVariable "a", none⟩ ∧
      f.assignAt env 3 "a" .nil none = (f, .error ⟨.undefinedVariable "a", none⟩) := by
  intro env f
  have hmain (v : Value) := walk_agrees_with_search f env "a" v none
  have houtermost : Links env 2 [0] := .further (.further .none)
  have hmiddle : ¬ ∃ found, Links env 1 found ∧ (("a" : Text) ∈ f.store.names found) := by
    rintro ⟨found, hlinks, hx⟩
    obtain ⟨rfl, -⟩ := links_iff.mp hlinks
    exact absurd hx (by decide)
  have hbeyond : ¬ ∃ found, Links env 3 found ∧ (("a" : Text) ∈ f.store.names found) := by
    rintro ⟨found, hlinks, -⟩
    exact absurd hlinks.lt_length (by decide)
  refine ⟨?_, ?_, ?_, ?_⟩
  · exact ((hmain .nil).1 0 env (.here (by decide)) .none).1
  · exact ((hmain (.bool false)).2.1 2 [0] houtermost (by decide)).2
  · exact ((hmain .nil).2.2.1 1 hmiddle).1
  · exact ((hmain .nil).2.2.1 3 hbeyond).2

end Forest

end Lox
