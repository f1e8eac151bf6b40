import Mathlib.Data.List.Nodup
import Mathlib.Logic.Relation
import Lox.Proofs.Parse.Keys
import Lox.Proofs.Resolution.Split
import Lox.Proofs.Tree.Load
import Lox.Tree.Decode

/-! Many programs with one supply of keys. Their nodes share no key, so the tables that resolving
them gives have entries for different keys, and an interpreter that gets one table after the other
loses none of its entries. -/

namespace Lox

namespace Resolver

/-- Where the accesses of a program are bound to depends on the program alone. -/
theorem table_resolve (r r' : Resolver) (q : Program Node) :
    (r.resolve q).1.table = (r'.resolve q).1.table := by
  rw [fst_resolve, fst_resolve, Lox.table_resolve, Lox.table_resolve]

private theorem table_eq_none (r : Resolver) {q : Program Node} {k : Nat}
    (hk : k ∉ Program.keys q) : (r.resolve q).1.table[k]? = none := by
  rw [fst_resolve]
  exact getElem?_resolve_eq_none hk

/-- Every access of a program is bound. -/
theorem exists_resolution (r : Resolver) {q : Program Node} (hkeys : (Program.keys q).Nodup)
    {a : Access Node} (ha : a ∈ Program.accesses q) :
    ∃ found, (r.resolve q).1.table[a.note.key]? = some found := by
  obtain ⟨d, hd⟩ := (Program.exists_access_finding false [] q).mpr ⟨a, ha, rfl, rfl⟩
  rw [fst_resolve]
  exact ⟨_, resolve_table_of_mem hkeys hd⟩

end Resolver

/-- What has been built in one process. -/
structure Process where
  /-- The first key that no node has yet. -/
  nextKey : Nat
  trees : List (Program Node)
  /-- The tables that resolving has given, each with its tree. -/
  resolved : List (Program Node × ResolutionTable)
  /-- The table of every interpreter. -/
  interpreters : List ResolutionTable

namespace Process

def start : Process := ⟨firstKey, [], [], []⟩

/-- With another tree, and the first key that its nodes have left over. -/
def add (p : Process) (read : Program Node × Nat) : Process :=
  { p with nextKey := read.2, trees := p.trees ++ [read.1] }

/-- What can be done in a process. -/
inductive Step (p : Process) : Process → Prop
  /-- A text is read, with errors or without. Nodes given up at an error are in no tree, but their
  keys are used up. -/
  | parse (source : Text) : Step p
    (p.add ((parseKeyed p.nextKey source).1.program, (parseKeyed p.nextKey source).2))
  | load {json : Option Json} {read : Program Node × Nat} :
    Program.ofJsonKeyed? p.nextKey json = .ok read → Step p (p.add read)
  /-- A resolver, whatever it knows and has resolved before, resolves one of the trees. -/
  | resolve (r : Resolver) {q : Program Node} : q ∈ p.trees →
    Step p { p with resolved := (q, (r.resolve q).1.table) :: p.resolved }
  | interpreter : Step p { p with interpreters := p.interpreters ++ [∅] }
  /-- A table that resolving has given is added to an interpreter. -/
  | addResolutions (n : Nat) {q : Program Node} {t : ResolutionTable} : (q, t) ∈ p.resolved →
    Step p { p with interpreters := p.interpreters.modify n (·.merge t) }

/-- One step after the other. -/
abbrev Steps : Process → Process → Prop := Relation.ReflTransGen Step

/-- No two nodes have the same key, tables are of trees that are there, and an interpreter has
entries only for keys that are given, and for a node of a tree only that tree's own. -/
structure Sound (p : Process) : Prop where
  lt_nextKey : ∀ q ∈ p.trees, ∀ k ∈ Program.keys q, k < p.nextKey
  nodup : (p.trees.flatMap Program.keys).Nodup
  resolved : ∀ q t, (q, t) ∈ p.resolved → q ∈ p.trees ∧ ∀ r : Resolver, t = (r.resolve q).1.table
  given : ∀ T ∈ p.interpreters, ∀ k, p.nextKey ≤ k → T[k]? = none
  own : ∀ T ∈ p.interpreters, ∀ q ∈ p.trees, ∀ k ∈ Program.keys q, ∀ found, T[k]? = some found →
    ∀ r : Resolver, (r.resolve q).1.table[k]? = some found

private theorem sound_start : start.Sound := ⟨nofun, List.nodup_nil, nofun, nofun, nofun⟩

section

variable {p p' : Process} {q q' : Program Node} {t : ResolutionTable}

private theorem Sound.nodup_keys (h : p.Sound) (hq : q ∈ p.trees) : (Program.keys q).Nodup :=
  (List.nodup_flatMap.mp h.nodup).1 q hq

/-- A key tells the place of its tree. -/
theorem Sound.index_eq (h : p.Sound) {i j k : Nat} (hi : p.trees[i]? = some q)
    (hj : p.trees[j]? = some q') (hk : k ∈ Program.keys q) (hk' : k ∈ Program.keys q') :
    i = j := by
  obtain ⟨hi', rfl⟩ := List.getElem?_eq_some_iff.mp hi
  obtain ⟨hj', rfl⟩ := List.getElem?_eq_some_iff.mp hj
  have hapart := List.pairwise_iff_getElem.mp (List.nodup_flatMap.mp h.nodup).2
  by_contra hne
  rcases Nat.lt_or_gt_of_ne hne with hlt | hlt
  · exact hapart i j hi' hj' hlt hk hk'
  · exact hapart j i hj' hi' hlt hk' hk

theorem Sound.eq_of_key (h : p.Sound) (hq : q ∈ p.trees) (hq' : q' ∈ p.trees) {k : Nat}
    (hk : k ∈ Program.keys q) (hk' : k ∈ Program.keys q') : q = q' := by
  obtain ⟨i, hi⟩ := List.mem_iff_getElem?.mp hq
  obtain ⟨j, hj⟩ := List.mem_iff_getElem?.mp hq'
  rw [h.index_eq hi hj hk hk', hj] at hi
  exact (Option.some.inj hi).symm

theorem Sound.eq_none_of_resolved (h : p.Sound) (ht : (q, t) ∈ p.resolved) {k : Nat}
    (hk : k ∉ Program.keys q) : t[k]? = none := by
  rw [(h.resolved q t ht).2 (.new [] false)]
  exact Resolver.table_eq_none _ hk

/-- A table that is added says of a key what the interpreter knows already, or something new. -/
theorem Sound.merge_of_some (h : p.Sound) {T : ResolutionTable} (hT : T ∈ p.interpreters)
    (ht : (q', t) ∈ p.resolved) (hq : q ∈ p.trees) {k : Nat} (hk : k ∈ Program.keys q)
    {found : Resolution} (hfound : T[k]? = some found) : (T.merge t)[k]? = some found := by
  obtain ⟨hq', htable⟩ := h.resolved q' t ht
  rw [ResolutionTable.getElem?_merge]
  by_cases hk' : k ∈ Program.keys q'
  · have hsame := h.eq_of_key hq hq' hk hk'
    have hown := h.own T hT q hq k hk found hfound (.new [] false)
    rw [htable (.new [] false), ← hsame, hown]
    rfl
  · rw [h.eq_none_of_resolved ht hk', hfound]
    rfl

private theorem Sound.add (h : p.Sound) {read : Program Node × Nat}
    (hread : Drawn p.nextKey read.2 (Program.notes read.1)) : (p.add read).Sound := by
  constructor
  · intro q hq k hk
    rcases List.mem_append.mp hq with hq | hq
    · exact Nat.lt_of_lt_of_le (h.lt_nextKey q hq k hk) hread.le
    · rw [List.mem_singleton.mp hq] at hk
      exact (hread.keys_range hk).2
  · change ((p.trees ++ [_]).flatMap Program.keys).Nodup
    rw [List.flatMap_append, List.flatMap_singleton, List.nodup_append]
    refine ⟨h.nodup, hread.nodup, ?_⟩
    intro k hold k' hnew heq
    obtain ⟨q, hq, hk⟩ := List.mem_flatMap.mp hold
    have hlt := h.lt_nextKey q hq k hk
    have hle := (hread.keys_range hnew).1
    omega
  · intro q t ht
    obtain ⟨hq, htable⟩ := h.resolved q t ht
    exact ⟨List.mem_append_left _ hq, htable⟩
  · intro T hT k hk
    exact h.given T hT k (Nat.le_trans hread.le hk)
  · intro T hT q hq k hk found hfound
    rcases List.mem_append.mp hq with hq | hq
    · exact h.own T hT q hq k hk found hfound
    · -- an interpreter has no entry yet for a node of the new tree
      rw [List.mem_singleton.mp hq] at hk
      rw [h.given T hT k (hread.keys_range hk).1] at hfound
      cases hfound

private theorem Sound.resolve (h : p.Sound) (r : Resolver) (hq : q ∈ p.trees) :
    Sound { p with resolved := (q, (r.resolve q).1.table) :: p.resolved } := by
  refine ⟨h.lt_nextKey, h.nodup, ?_, h.given, h.own⟩
  intro q' t ht
  rcases List.mem_cons.mp ht with heq | ht
  · cases heq
    exact ⟨hq, fun r' => Resolver.table_resolve r r' q⟩
  · exact h.resolved q' t ht

/-- An interpreter that has got no table yet has no entries. -/
theorem Sound.interpreter (h : p.Sound) :
    Sound { p with interpreters := p.interpreters ++ [∅] } := by
  have hnone (k : Nat) : (∅ : ResolutionTable)[k]? = none := Std.TreeMap.getElem?_emptyc
  refine ⟨h.lt_nextKey, h.nodup, h.resolved, ?_, ?_⟩
  · intro T hT k hk
    rcases List.mem_append.mp hT with hT | hT
    · exact h.given T hT k hk
    · rw [List.mem_singleton.mp hT, hnone]
  · intro T hT q hq k hk found hfound
    rcases List.mem_append.mp hT with hT | hT
    · exact h.own T hT q hq k hk found hfound
    · rw [List.mem_singleton.mp hT, hnone] at hfound
      cases hfound

private theorem Sound.addResolutions (h : p.Sound) (n : Nat) (ht : (q, t) ∈ p.resolved) :
    Sound { p with interpreters := p.interpreters.modify n (·.merge t) } := by
  obtain ⟨hq, htable⟩ := h.resolved q t ht
  have hmem (U : ResolutionTable) (hU : U ∈ p.interpreters.modify n (·.merge t)) :
      U ∈ p.interpreters ∨ ∃ T ∈ p.interpreters, U = T.merge t := by
    obtain ⟨m, hm⟩ := List.mem_iff_getElem?.mp hU
    rw [List.getElem?_modify] at hm
    split at hm
    · obtain ⟨T, hT, rfl⟩ := Option.map_eq_some_iff.mp hm
      exact .inr ⟨T, List.mem_of_getElem? hT, rfl⟩
    · rw [id_map'] at hm
      exact .inl (List.mem_of_getElem? hm)
  constructor
  · exact h.lt_nextKey
  · exact h.nodup
  · exact h.resolved
  · intro U hU k hk
    rcases hmem U hU with hU | ⟨T, hT, rfl⟩
    · exact h.given U hU k hk
    · have hnew : k ∉ Program.keys q := fun hkey =>
        Nat.not_lt.mpr hk (h.lt_nextKey q hq k hkey)
      rw [ResolutionTable.getElem?_merge, h.eq_none_of_resolved ht hnew, h.given T hT k hk]
      rfl
  · intro U hU q' hq' k hk found hfound r
    rcases hmem U hU with hU | ⟨T, hT, rfl⟩
    · exact h.own U hU q' hq' k hk found hfound r
    · cases hold : T[k]? with
      | some old =>
        have hkept := h.merge_of_some hT ht hq' hk hold
        rw [hfound] at hkept
        rw [hkept]
        exact h.own T hT q' hq' k hk old hold r
      | none =>
        rw [ResolutionTable.getElem?_merge, hold, Option.or_none] at hfound
        have hkey : k ∈ Program.keys q := by
          by_contra hkey
          rw [h.eq_none_of_resolved ht hkey] at hfound
          cases hfound
        rw [h.eq_of_key hq' hq hk hkey, ← htable r]
        exact hfound

private theorem Sound.step (h : p.Sound) (hstep : Step p p') : p'.Sound := by
  cases hstep with
  | parse source => exact h.add (drawn_parseKeyed p.nextKey source)
  | load hload => exact h.add (Program.drawn_ofJsonKeyed? hload)
  | resolve r hq => exact h.resolve r hq
  | interpreter => exact h.interpreter
  | addResolutions n ht => exact h.addResolutions n ht

theorem Sound.steps (h : p.Sound) (hsteps : Steps p p') : p'.Sound := by
  induction hsteps with
  | refl => exact h
  | tail _ hstep ih => exact ih.step hstep

/-- Later the trees and the interpreters are still there, and what an interpreter has found for a
node it finds again. -/
structure Keeps (p p' : Process) : Prop where
  trees : p.trees ⊆ p'.trees
  found : ∀ (n : Nat) (T : ResolutionTable), p.interpreters[n]? = some T →
    ∃ T' : ResolutionTable, p'.interpreters[n]? = some T' ∧ ∀ q ∈ p.trees,
      ∀ k ∈ Program.keys q, ∀ found, T[k]? = some found → T'[k]? = some found

theorem Keeps.refl (p : Process) : p.Keeps p :=
  ⟨List.Subset.refl _, fun _ T hT => ⟨T, hT, fun _ _ _ _ _ => id⟩⟩

theorem Keeps.trans {p'' : Process} (h : p.Keeps p') (h' : p'.Keeps p'') : p.Keeps p'' := by
  constructor
  · exact List.Subset.trans h.trees h'.trees
  · intro n T hT
    obtain ⟨T', hT', hfound⟩ := h.found n T hT
    obtain ⟨T'', hT'', hfound'⟩ := h'.found n T' hT'
    refine ⟨T'', hT'', ?_⟩
    intro q hq k hk found hk'
    exact hfound' q (h.trees hq) k hk found (hfound q hq k hk found hk')

private theorem Sound.keeps_step (h : p.Sound) (hstep : Step p p') : p.Keeps p' := by
  cases hstep with
  | parse source => exact ⟨List.subset_append_left _ _, (Keeps.refl p).found⟩
  | load => exact ⟨List.subset_append_left _ _, (Keeps.refl p).found⟩
  | resolve r _ => exact ⟨List.Subset.refl _, (Keeps.refl p).found⟩
  | interpreter =>
    refine ⟨List.Subset.refl _, ?_⟩
    intro n T hT
    obtain ⟨hn, -⟩ := List.getElem?_eq_some_iff.mp hT
    refine ⟨T, ?_, fun _ _ _ _ _ => id⟩
    rw [List.getElem?_append_left hn]
    exact hT
  | @addResolutions m q t ht =>
    refine ⟨List.Subset.refl _, ?_⟩
    intro n T hT
    have hmem : T ∈ p.interpreters := List.mem_of_getElem? hT
    change ∃ T', (p.interpreters.modify m (·.merge t))[n]? = some T' ∧ _
    rw [List.getElem?_modify, hT]
    split
    · refine ⟨T.merge t, rfl, ?_⟩
      intro q' hq' k hk found hfound
      exact h.merge_of_some hmem ht hq' hk hfound
    · exact ⟨T, rfl, fun _ _ _ _ _ => id⟩

private theorem Sound.keeps (h : p.Sound) (hsteps : Steps p p') : p.Keeps p' := by
  induction hsteps with
  | refl => exact Keeps.refl p
  | tail hsteps hstep ih => exact ih.trans ((h.steps hsteps).keeps_step hstep)

end

/-- Whatever texts and trees a process reads, resolves and adds to its interpreters, in any order:
no two nodes of its trees have the same key; a table binds every access of its own program, and
adding it to an interpreter changes what is found for no access of another program; and what an
interpreter finds for an access it finds ever after. -/
theorem tables_apart {p p' : Process} (h : Steps start p) (h' : Steps p p') :
    (p.trees.flatMap Program.keys).Nodup ∧
    (∀ (q : Program Node) (t : ResolutionTable), (q, t) ∈ p.resolved → ∀ a ∈ Program.accesses q,
      ∃ found, t[a.note.key]? = some found ∧
        ∀ T : ResolutionTable, (T.merge t)[a.note.key]? = some found) ∧
    (∀ (i j : Nat) (q q' : Program Node), p.trees[i]? = some q → p.trees[j]? = some q' → i ≠ j →
      ∀ t : ResolutionTable, (q', t) ∈ p.resolved → ∀ a ∈ Program.accesses q,
        ∀ T : ResolutionTable, (T.merge t)[a.note.key]? = T[a.note.key]?) ∧
    ∀ (n : Nat) (T : ResolutionTable), p.interpreters[n]? = some T →
      ∃ T' : ResolutionTable, p'.interpreters[n]? = some T' ∧ ∀ q ∈ p.trees,
        ∀ a ∈ Program.accesses q, ∀ found,
          T[a.note.key]? = some found → T'[a.note.key]? = some found := by
  have hsound : p.Sound := sound_start.steps h
  refine ⟨hsound.nodup, ?_, ?_, ?_⟩
  · intro q t ht a ha
    obtain ⟨hq, htable⟩ := hsound.resolved q t ht
    obtain ⟨found, hfound⟩ :=
      Resolver.exists_resolution (.new [] false) (hsound.nodup_keys hq) ha
    rw [← htable] at hfound
    refine ⟨found, hfound, fun T => ?_⟩
    rw [ResolutionTable.getElem?_merge, hfound]
    rfl
  · intro i j q q' hi hj hne t ht a ha T
    have hkey : a.note.key ∉ Program.keys q' := fun hkey =>
      hne (hsound.index_eq hi hj (Program.key_mem_keys ha) hkey)
    rw [ResolutionTable.getElem?_merge, hsound.eq_none_of_resolved ht hkey]
    rfl
  · intro n T hT
    obtain ⟨T', hT', hfound⟩ := (hsound.keeps h').found n T hT
    refine ⟨T', hT', ?_⟩
    intro q hq a ha found hk
    exact hfound q hq a.note.key (Program.key_mem_keys ha) found hk

/-- The interpreter still knows the parameter of the first program's function when it has got the
table of a second one, which calls it. The second text has an error, at which a node is given up. -/
theorem tables_apart_earlier :
    let read (k : Nat) (source : Text) : Program Node × Nat :=
      ((parseKeyed k source).1.program, (parseKeyed k source).2)
    let first := read firstKey "fun f(n) \x7b return n; \x7d"
    let second := read first.2 "f(1); var = f; f(2) 3;"
    ∃ p' p'' : Process, Steps start p' ∧ Steps p' p'' ∧ p'.trees = [first.1] ∧
      p''.trees = [first.1, second.1] ∧ (∃ a ∈ Program.accesses first.1, a.note.key = 1) ∧
        ∃ T : ResolutionTable, p''.interpreters[0]? = some T ∧ T[1]? = some (.atDepth 0) := by
  intro read first second
  let r := Resolver.new [] false
  let table := (r.resolve first.1).1.table
  -- the first program is read and resolved, and its table added to an interpreter
  let p' : Process := ⟨first.2, [first.1], [(first.1, table)], [(∅ : ResolutionTable).merge table]⟩
  have hread : Steps start (start.add first) := .single (.parse _)
  have hresolved := (hread.tail (.resolve r (List.mem_singleton_self first.1))).tail .interpreter
  have h : Steps start p' := hresolved.tail (.addResolutions 0 List.mem_cons_self)
  -- then another one is read, resolved and added
  let table' := (r.resolve second.1).1.table
  let p'' : Process := ⟨second.2, [first.1, second.1], [(second.1, table'), (first.1, table)],
    [((∅ : ResolutionTable).merge table).merge table']⟩
  have hread' : Steps p' (p'.add second) := .single (.parse _)
  have hlast := hread'.tail
    (.resolve r (List.mem_append_right _ (List.mem_singleton_self second.1)))
  have h' : Steps p' p'' := hlast.tail (.addResolutions 0 List.mem_cons_self)
  obtain ⟨-, -, -, hfound⟩ := tables_apart h h'
  obtain ⟨T, hT, hkept⟩ := hfound 0 _ rfl
  obtain ⟨a, ha, hkey⟩ : ∃ a ∈ Program.accesses first.1, a.note.key = 1 := by
    have hany : (Program.accesses first.1).any (·.note.key = 1) = true := by decide +kernel
    simpa using List.any_eq_true.mp hany
  have hknown : ((∅ : ResolutionTable).merge table)[1]? = some (.atDepth 0) := by decide +kernel
  refine ⟨p', p'', h, h', rfl, rfl, ⟨a, ha, hkey⟩, T, hT, ?_⟩
  rw [← hkey]
  apply hkept first.1 (List.mem_singleton_self first.1) a ha
  rw [hkey]
  exact hknown

end Process

end Lox
