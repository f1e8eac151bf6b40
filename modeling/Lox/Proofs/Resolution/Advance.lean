import Mathlib.Data.List.Forall2
import Lox.Proofs.Resolution.Clean

/-! Scopes under changes in any order. What a scope has come to know of a name it never takes back:
a name that was declared stays taken, one that may be used stays usable, and so a lookup that finds
a name finds it at no greater depth later. -/

namespace Lox

namespace Scope

variable {s t u : Scope} {x y : Name}

/-- Every hoisted name is there once, and may be used. -/
structure Orderly (s : Scope) : Prop where
  nodup : s.hoisted.Nodup
  defined : ∀ y ∈ s.hoisted, s.state? y = some .defined

/-- One scope at two times: taken names stay taken, and defined ones defined. -/
structure Advances (s t : Scope) : Prop where
  taken : ∀ y, s.Taken y → t.Taken y
  defined : ∀ y, s.state? y = some .defined → t.state? y = some .defined

theorem Advances.refl (s : Scope) : s.Advances s := ⟨fun _ => id, fun _ => id⟩

theorem Advances.trans (h : s.Advances t) (h' : t.Advances u) : s.Advances u :=
  ⟨fun y hy => h'.taken y (h.taken y hy), fun y hy => h'.defined y (h.defined y hy)⟩

private theorem orderly_empty : empty.Orderly := ⟨List.nodup_nil, nofun⟩

private theorem Orderly.declare (h : s.Orderly) (x : Name) : (s.declare x).2.Orderly := by
  have hsublist := hoisted_declare_subset s x
  constructor
  · exact hsublist.nodup h.nodup
  · intro y hy
    exact state?_declare_of_some (h.defined y (hsublist.subset hy)) x

private theorem Orderly.define (h : s.Orderly) (x : Name) : (s.define x).Orderly := by
  constructor
  · exact h.nodup
  · intro y hy
    rw [state?_define]
    split
    · rfl
    · exact h.defined y hy

private theorem Orderly.hoist (h : s.Orderly) (x : Name) : (s.hoist x).Orderly := by
  have hfair : s.Fair := ⟨h.nodup, fun y hy => by rw [h.defined y hy]; rfl⟩
  constructor
  · exact (hfair.hoist x).nodup
  · intro y hy
    rw [state?_hoist]
    split
    · rfl
    · rename_i hyx
      rw [Scope.hoist] at hy
      split at hy
      · exact h.defined y hy
      · rename_i hx
        have hnone : s.state? x = none := by simpa using hx
        have hne : y ≠ x := fun heq => hyx ⟨heq, hnone⟩
        exact h.defined y ((List.mem_cons.mp hy).resolve_left hne)

private theorem advances_declare (s : Scope) (x : Name) : s.Advances (s.declare x).2 := by
  constructor
  · rintro y ⟨hhoisted, hsome⟩
    obtain ⟨st, hst⟩ := Option.isSome_iff_exists.mp hsome
    constructor
    · exact fun hmem => hhoisted ((hoisted_declare_subset s x).subset hmem)
    · rw [state?_declare_of_some hst]
      rfl
  · intro y hy
    exact state?_declare_of_some hy x

private theorem advances_define (s : Scope) (x : Name) : s.Advances (s.define x) := by
  constructor
  · rintro y ⟨hhoisted, hsome⟩
    constructor
    · exact hhoisted
    · rw [state?_define]
      split
      · rfl
      · exact hsome
  · intro y hy
    rw [state?_define]
    split
    · rfl
    · exact hy

private theorem advances_hoist (s : Scope) (x : Name) : s.Advances (s.hoist x) := by
  constructor
  · exact fun y hy => hy.hoist x
  · intro y hy
    rw [state?_hoist]
    split
    · rfl
    · exact hy

/-- After its declaration, allowed or not, a name is taken. -/
theorem Orderly.taken_declare (h : s.Orderly) (x : Name) : (s.declare x).2.Taken x := by
  rw [Scope.declare]
  by_cases hx : x ∈ s.hoisted
  · rw [if_pos hx]
    have hstate : s.state? x = some .defined := h.defined x hx
    constructor
    · exact fun hmem => ((List.Nodup.mem_erase_iff h.nodup).mp hmem).1 rfl
    · change (s.state? x).isSome = true
      rw [hstate]
      rfl
  · rw [if_neg hx]
    split
    · rename_i hsome
      exact ⟨hx, hsome⟩
    · constructor
      · exact hx
      · simp [state?]

/-- Where every scope has advanced, a name is found at the same depth or nearer. -/
theorem depth?_of_advances {scopes scopes' : List Scope}
    (h : List.Forall₂ Advances scopes scopes') {d : Nat} (hd : depth? x scopes = some d) :
    ∃ e ≤ d, depth? x scopes' = some e := by
  induction h generalizing d with
  | nil => cases hd
  | @cons s t outer outer' hst _ ih =>
    rw [depth?] at hd ⊢
    by_cases ht : t.state? x = some .defined
    · rw [if_pos ht]
      exact ⟨0, Nat.zero_le d, rfl⟩
    · have hs : s.state? x ≠ some .defined := fun hs => ht (hst.defined x hs)
      rw [if_neg hs] at hd
      obtain ⟨d', hd', rfl⟩ := Option.map_eq_some_iff.mp hd
      obtain ⟨e, he, hfound⟩ := ih hd'
      rw [if_neg ht, hfound]
      exact ⟨e + 1, Nat.succ_le_succ he, rfl⟩

end Scope

namespace ScopeForest

/-- What is done to the scopes of a tree, each of them known by its number. -/
inductive Change where
  | declare (i : Nat) (x : Name)
  | define (i : Nat) (x : Name)
  | hoist (i : Nat) (x : Name)
  | child (i : Nat)

def Change.scope : Change → Nat
  | .declare i _ | .define i _ | .hoist i _ | .child i => i

def apply (f : ScopeForest) : Change → ScopeForest
  | .declare i x => (f.declare i x).2
  | .define i x => f.define i x
  | .hoist i x => f.hoist i x
  | .child i => (f.child i).2

def applyAll (f : ScopeForest) (changes : List Change) : ScopeForest := changes.foldl apply f

/-- Every change is made to a scope that is there by then. -/
def Admits (f : ScopeForest) : List Change → Prop
  | [] => True
  | c :: rest => c.scope < f.nodes.length ∧ (f.apply c).Admits rest

/-- The scope and the name of a declaration that is allowed. -/
def allowed? (f : ScopeForest) : Change → Option (Nat × Name)
  | .declare i x => if (f.declare i x).1 then some (i, x) else none
  | _ => none

/-- The declarations among the changes that are allowed when their turn comes. -/
def allowed (f : ScopeForest) : List Change → List (Nat × Name)
  | [] => []
  | c :: rest => (f.allowed? c).toList ++ (f.apply c).allowed rest

/-- One tree at two times: its scopes have advanced and stay inside the same scopes. -/
structure Advances (f g : ScopeForest) : Prop where
  size : f.nodes.length ≤ g.nodes.length
  path : ∀ i < f.nodes.length, g.path i = f.path i
  scope : ∀ i, (f.scope i).Advances (g.scope i)

variable {f g h : ScopeForest} {i j : Nat} {x : Name} {c : Change} {changes : List Change}

theorem Advances.refl (f : ScopeForest) : f.Advances f :=
  ⟨Nat.le_refl _, fun _ _ => rfl, fun i => Scope.Advances.refl (f.scope i)⟩

theorem Advances.trans (hfg : f.Advances g) (hgh : g.Advances h) : f.Advances h := by
  constructor
  · exact Nat.le_trans hfg.size hgh.size
  · intro i hi
    rw [hgh.path i (Nat.lt_of_lt_of_le hi hfg.size), hfg.path i hi]
  · intro i
    exact (hfg.scope i).trans (hgh.scope i)

section Update

variable (change : Scope → Scope)

theorem scope_update (hi : i < f.nodes.length) (j : Nat) :
    (f.update i change).scope j = if j = i then change (f.scope i) else f.scope j := by
  unfold scope update
  rw [List.getElem?_modify]
  by_cases hj : j = i
  · subst hj
    simp [List.getElem?_eq_getElem hi]
  · simp [hj, Ne.symm hj]

private theorem path_update (f : ScopeForest) (i j : Nat) :
    (f.update i change).path j = f.path j := by
  unfold path update
  rw [List.getElem?_modify]
  by_cases hj : i = j
  · cases f.nodes[j]? <;> simp [hj]
  · simp [hj]

private theorem advances_update (hi : i < f.nodes.length)
    (hchange : (f.scope i).Advances (change (f.scope i))) : f.Advances (f.update i change) := by
  constructor
  · exact Nat.le_of_eq (List.length_modify ..).symm
  · intro j _
    exact path_update change f i j
  · intro j
    rw [scope_update change hi]
    split
    · rename_i hj
      subst hj
      exact hchange
    · exact Scope.Advances.refl (f.scope j)

end Update

theorem scope_child (f : ScopeForest) (i j : Nat) : (f.child i).2.scope j = f.scope j := by
  unfold scope child
  rcases Nat.lt_trichotomy j f.nodes.length with hj | rfl | hj
  · rw [List.getElem?_append_left hj]
  · simp
  · rw [List.getElem?_eq_none (Nat.le_of_lt hj), List.getElem?_eq_none]
    rw [List.length_append]
    exact hj

private theorem advances_child (f : ScopeForest) (i : Nat) : f.Advances (f.child i).2 := by
  constructor
  · unfold child
    rw [List.length_append]
    exact Nat.le_add_right _ _
  · intro j hj
    unfold path child
    rw [List.getElem?_append_left hj]
  · intro j
    rw [scope_child]
    exact Scope.Advances.refl (f.scope j)

/-- No change to a scope that is there takes anything back. -/
theorem advances_apply (hc : c.scope < f.nodes.length) : f.Advances (f.apply c) := by
  cases c with
  | declare i x =>
    exact advances_update (fun s => (s.declare x).2) hc (Scope.advances_declare (f.scope i) x)
  | define i x => exact advances_update (·.define x) hc (Scope.advances_define (f.scope i) x)
  | hoist i x => exact advances_update (·.hoist x) hc (Scope.advances_hoist (f.scope i) x)
  | child i => exact advances_child f i

private theorem advances_applyAll (hchanges : f.Admits changes) : f.Advances
    (f.applyAll changes) := by
  induction changes generalizing f with
  | nil => exact Advances.refl f
  | cons c rest ih =>
    obtain ⟨hc, hrest⟩ := hchanges
    exact (advances_apply hc).trans (ih hrest)

/-- Every scope of the tree is orderly. -/
def Orderly (f : ScopeForest) : Prop := ∀ i, (f.scope i).Orderly

private theorem orderly_single : single.Orderly := by
  intro i
  cases i with
  | zero => exact Scope.orderly_empty
  | succ i => exact Scope.orderly_empty

private theorem Orderly.update (hf : f.Orderly) (hi : i < f.nodes.length) {change : Scope → Scope}
    (hchange : (change (f.scope i)).Orderly) : (f.update i change).Orderly := by
  intro j
  rw [scope_update change hi]
  split
  · exact hchange
  · exact hf j

theorem Orderly.apply (hf : f.Orderly) (hc : c.scope < f.nodes.length) : (f.apply c).Orderly := by
  cases c with
  | declare i x => exact hf.update hc ((hf i).declare x)
  | define i x => exact hf.update hc ((hf i).define x)
  | hoist i x => exact hf.update hc ((hf i).hoist x)
  | child i =>
    intro j
    change ((f.child i).2.scope j).Orderly
    rw [scope_child]
    exact hf j

private theorem Orderly.applyAll (hf : f.Orderly) (hchanges : f.Admits changes) :
    (f.applyAll changes).Orderly := by
  induction changes generalizing f with
  | nil => exact hf
  | cons c rest ih =>
    obtain ⟨hc, hrest⟩ := hchanges
    exact ih (hf.apply hc) hrest

private theorem admits_append {earlier later : List Change} :
    f.Admits (earlier ++ later) ↔ f.Admits earlier ∧ (f.applyAll earlier).Admits later := by
  induction earlier generalizing f with
  | nil => exact (true_and _).to_iff.symm
  | cons c rest ih =>
    have hrest := ih (f := f.apply c)
    exact (and_congr_right' hrest).trans and_assoc.symm

/-- A scope that is not there finds nothing. -/
theorem lt_length_of_depth? {d : Nat} (hd : f.depth? i x = some d) : i < f.nodes.length := by
  by_contra hi
  have hnone : f.nodes[i]? = none := List.getElem?_eq_none (Nat.le_of_not_lt hi)
  simp [depth?, path, scope, hnone, Scope.depth?] at hd

/-- A name is found at the same depth later, or nearer. -/
theorem Advances.depth? (hfg : f.Advances g) {d : Nat} (hd : f.depth? i x = some d) :
    ∃ e ≤ d, g.depth? i x = some e := by
  have hpath : g.path i = f.path i := hfg.path i (lt_length_of_depth? hd)
  unfold ScopeForest.depth?
  rw [hpath]
  apply Scope.depth?_of_advances _ hd
  rw [List.forall₂_map_left_iff, List.forall₂_map_right_iff]
  exact List.forall₂_same.mpr fun j _ => hfg.scope j

/-- What is allowed to be declared was free, and is taken from then on. -/
theorem taken_of_allowed? (hf : f.Orderly) (hc : c.scope < f.nodes.length)
    (hallowed : f.allowed? c = some (i, x)) :
    ¬ (f.scope i).Taken x ∧ ((f.apply c).scope i).Taken x := by
  cases c with
  | declare j y =>
    rw [allowed?] at hallowed
    split at hallowed
    · rename_i hdeclare
      cases hallowed
      constructor
      · intro htaken
        have hrefused : (f.declare i x).1 = false := Scope.declare_of_taken htaken
        rw [hrefused] at hdeclare
        cases hdeclare
      · have hscope : (f.apply (.declare i x)).scope i = ((f.scope i).declare x).2 :=
          (scope_update (fun s => (s.declare x).2) hc i).trans (if_pos rfl)
        rw [hscope]
        exact (hf i).taken_declare x
    · cases hallowed
  | define _ _ | hoist _ _ | child _ => cases hallowed

/-- No declaration of a name that is taken is allowed. -/
theorem not_taken_of_allowed (hf : f.Orderly) (hchanges : f.Admits changes)
    (hallowed : (i, x) ∈ f.allowed changes) : ¬ (f.scope i).Taken x := by
  induction changes generalizing f with
  | nil => cases hallowed
  | cons c rest ih =>
    obtain ⟨hc, hrest⟩ := hchanges
    rcases List.mem_append.mp hallowed with hfirst | hlater
    · exact (taken_of_allowed? hf hc (Option.mem_toList.mp hfirst)).1
    · intro htaken
      have hstill := ((advances_apply hc).scope i).taken x htaken
      exact ih (hf.apply hc) hrest hlater hstill

private theorem nodup_allowed (hf : f.Orderly) (hchanges : f.Admits changes) :
    (f.allowed changes).Nodup := by
  induction changes generalizing f with
  | nil => exact List.nodup_nil
  | cons c rest ih =>
    obtain ⟨hc, hrest⟩ := hchanges
    rw [allowed]
    cases hfirst : f.allowed? c with
    | none => exact ih (hf.apply hc) hrest
    | some entry =>
      obtain ⟨i, x⟩ := entry
      have htaken := (taken_of_allowed? hf hc hfirst).2
      have hnew : (i, x) ∉ (f.apply c).allowed rest := fun hagain =>
        not_taken_of_allowed (hf.apply hc) hrest hagain htaken
      exact List.nodup_cons.mpr ⟨hnew, ih (hf.apply hc) hrest⟩

/-- Whatever is declared, defined, hoisted and opened in a tree of scopes, in any order: no scope
allows two declarations of one name, every hoisted name may be used, and a lookup that has found a
name finds it ever after, at the same depth or nearer. -/
theorem states_advance (changes : List Change) (hchanges : single.Admits changes) :
    (single.allowed changes).Nodup ∧
    (∀ i, ∀ x ∈ ((single.applyAll changes).scope i).hoisted,
      ((single.applyAll changes).scope i).state? x = some .defined) ∧
    ∀ earlier later, changes = earlier ++ later → ∀ i x d,
      (single.applyAll earlier).depth? i x = some d →
        ∃ e ≤ d, (single.applyAll changes).depth? i x = some e := by
  refine ⟨nodup_allowed orderly_single hchanges, ?_, ?_⟩
  · intro i
    exact (orderly_single.applyAll hchanges i).defined
  · rintro earlier later rfl i x d hd
    obtain ⟨-, hlater⟩ := admits_append.mp hchanges
    have happly : single.applyAll (earlier ++ later) =
        (single.applyAll earlier).applyAll later := List.foldl_append
    rw [happly]
    exact (advances_applyAll hlater).depth? hd

/-- The hoisted name is declared once, then refused, and defined nearer by. -/
theorem states_advance_hoisted :
    let earlier : List Change := [.hoist 0 "f", .child 0, .declare 0 "f"]
    let changes := earlier ++ [.declare 0 "f", .declare 1 "f", .define 1 "f", .hoist 0 "f"]
    single.Admits changes ∧ single.allowed changes = [(0, ("f" : Text)), (1, ("f" : Text))] ∧
      (single.applyAll earlier).depth? 1 "f" = some 1 ∧
      ∃ e ≤ 1, (single.applyAll changes).depth? 1 "f" = some e := by
  intro earlier changes
  have hadmits : single.Admits changes := by
    refine ⟨?_, ?_, ?_, ?_, ?_, ?_, ?_, trivial⟩ <;> decide
  obtain ⟨-, -, hdepth⟩ := states_advance changes hadmits
  exact ⟨hadmits, by decide, by decide, hdepth earlier _ rfl 1 "f" 1 (by decide)⟩

end ScopeForest

end Lox
