import Lox.Proofs.Resolution.Follow

/-! Programs resolved in parts. At the top level no statement changes the scopes of the next one, so
what the resolver finds in a program is what it finds in its parts, one after the other. -/

namespace Lox

section

variable {n : Node} {x : Name}

theorem Expr.exists_access_finding (scopes : List Scope) (e : Expr Node) :
    (∃ d, .access n x d ∈ e.findings scopes) ↔ ∃ a ∈ e.accesses, a.note = n ∧ a.name = x := by
  rw [e.findings_eq_map_accesses]
  simp

private theorem Expr.exists_access_finding? (scopes : List Scope) (e : Option (Expr Node)) :
    (∃ d, .access n x d ∈ Expr.findings? scopes e) ↔
      ∃ a ∈ Expr.accesses? e, a.note = n ∧ a.name = x := by
  cases e with
  | none => simp [Expr.findings?, Expr.accesses?]
  | some e => exact e.exists_access_finding scopes

mutual

theorem Stmt.exists_access_finding (b : Bool) (scopes : List Scope) : ∀ s : Stmt Node,
    (∃ d, .access n x d ∈ (s.findings b scopes).1) ↔ ∃ a ∈ s.accesses, a.note = n ∧ a.name = x
  | .expression _ e | .print _ e => e.exists_access_finding scopes
  | .varDecl m y e => by
    simp only [Stmt.findings, Stmt.accesses, List.mem_append,
      Scope.access_notMem_declareInner, false_or]
    exact Expr.exists_access_finding? _ e
  | .block m body => Program.exists_access_finding b _ body
  | .ifElse _ c t none => by
    simp only [Stmt.findings, Stmt.accesses, List.mem_append, exists_or, or_and_right,
      c.exists_access_finding scopes, t.exists_access_finding b scopes]
  | .ifElse _ c t (some e) => by
    simp only [Stmt.findings, Stmt.accesses, List.mem_append, exists_or, or_and_right,
      c.exists_access_finding scopes, t.exists_access_finding b scopes,
      e.exists_access_finding b _]
  | .whileLoop _ c body => by
    simp only [Stmt.findings, Stmt.accesses, List.mem_append, exists_or, or_and_right,
      c.exists_access_finding scopes, body.exists_access_finding b scopes]
  | .funDecl m y params body => by
    simp only [Stmt.findings, Stmt.accesses, List.mem_append,
      Scope.access_notMem_declareInner, Scope.access_notMem_withParams, false_or]
    exact Program.exists_access_finding true _ body
  | .returnStmt _ e => by
    have he := Expr.exists_access_finding? (n := n) (x := x) scopes e
    by_cases hb : b <;> simpa [Stmt.findings, Stmt.accesses, hb] using he

/-- The accesses that the resolver finds in a program are all that it has. -/
theorem Program.exists_access_finding (b : Bool) (scopes : List Scope) : ∀ p : Program Node,
    (∃ d, .access n x d ∈ (Program.findings b scopes p).1) ↔
      ∃ a ∈ Program.accesses p, a.note = n ∧ a.name = x
  | [] => by simp [Program.findings, Program.accesses]
  | s :: rest => by
    simp only [Program.findings, Program.accesses, List.mem_append, exists_or, or_and_right,
      s.exists_access_finding b scopes, Program.exists_access_finding b _ rest]

end

end

/-- At the top level there are no scopes that a statement could change. -/
theorem Stmt.findings_top (b : Bool) (s : Stmt Node) : (s.findings b []).2 = [] :=
  List.eq_nil_of_length_eq_zero (s.length_findings b [])

theorem Program.findings_append (p q : Program Node) :
    (Program.findings false [] (p ++ q)).1 =
      (Program.findings false [] p).1 ++ (Program.findings false [] q).1 := by
  induction p with
  | nil => rfl
  | cons s rest ih =>
    simp only [List.cons_append, Program.findings, s.findings_top, ih, List.append_assoc]

/-- Where undefined globals are not reported, no diagnostic depends on the known ones. -/
theorem Finding.diagnostic?_unreported (known known' : List Name) (f : Finding) :
    f.diagnostic? known false = f.diagnostic? known' false := by
  cases f with
  | access n x d => cases d <;> rfl
  | fault f l => rfl

theorem resolve_unreported (known : List Name) (p : Program Node) :
    (resolve known false p).diagnostics =
      (Program.findings false [] p).1.filterMap (Finding.diagnostic? [] false) := by
  rw [diagnostics_resolve]
  exact List.filterMap_congr fun f _ => f.diagnostic?_unreported _ _

namespace ResolutionTable

/-- The last entry for a key counts. -/
theorem getElem?_foldl_insert (entries : List (Nat × Resolution)) (t : ResolutionTable) (k : Nat) :
    (entries.foldl (fun t (key, r) => t.insert key r) t)[k]? =
      (entries.reverse.lookup k).or t[k]? := by
  induction entries generalizing t with
  | nil => rfl
  | cons entry rest ih =>
    obtain ⟨key, r⟩ := entry
    rw [List.foldl_cons, ih, Std.TreeMap.getElem?_insert, List.reverse_cons, List.lookup_append,
      Option.or_assoc]
    by_cases hk : key = k
    · subst hk
      simp
    · have hcompare : ¬ compare key k = .eq := by simpa using hk
      have hne : (k == key) = false := by simpa using Ne.symm hk
      rw [if_neg hcompare, List.lookup_cons, hne]
      rfl

theorem getElem?_ofFindings (findings : List Finding) (k : Nat) :
    (ofFindings findings)[k]? = (findings.filterMap Finding.resolution?).reverse.lookup k := by
  unfold ofFindings
  rw [getElem?_foldl_insert]
  simp

private theorem lookup_toList (t : ResolutionTable) (k : Nat) :
    t.toList.reverse.lookup k = t[k]? := by
  cases h : t.toList.reverse.lookup k with
  | none =>
    cases ht : t[k]? with
    | none => rfl
    | some r =>
      have hmem : (k, r) ∈ t.toList := Std.TreeMap.mem_toList_iff_getElem?_eq_some.mpr ht
      have hne := List.lookup_eq_none_iff.mp h (k, r) (List.mem_reverse.mpr hmem)
      simp at hne
  | some r =>
    obtain ⟨before, after, heq, -⟩ := List.lookup_eq_some_iff.mp h
    have hmem : (k, r) ∈ t.toList := by
      rw [← List.mem_reverse, heq]
      simp
    exact (Std.TreeMap.mem_toList_iff_getElem?_eq_some.mp hmem).symm

theorem getElem?_merge (t u : ResolutionTable) (k : Nat) :
    (t.merge u)[k]? = u[k]?.or t[k]? := by
  unfold merge
  rw [Std.TreeMap.foldl_eq_foldl_toList, ← lookup_toList u]
  exact getElem?_foldl_insert u.toList t k

/-- Findings added together and one after the other make the same table. -/
theorem getElem?_merge_append (t : ResolutionTable) (findings others : List Finding) (k : Nat) :
    (t.merge (ofFindings (findings ++ others)))[k]? =
      ((t.merge (ofFindings findings)).merge (ofFindings others))[k]? := by
  simp only [getElem?_merge, getElem?_ofFindings, List.filterMap_append, List.reverse_append,
    List.lookup_append, Option.or_assoc]

/-- A table has entries only for the accesses that have been found. -/
theorem getElem?_ofFindings_eq_none {findings : List Finding} {k : Nat}
    (h : ∀ n x d, .access n x d ∈ findings → n.key ≠ k) : (ofFindings findings)[k]? = none := by
  rw [getElem?_ofFindings, List.lookup_eq_none_iff]
  rintro ⟨key, r⟩ hmem
  obtain ⟨f, hf, hentry⟩ := List.mem_filterMap.mp (List.mem_reverse.mp hmem)
  obtain ⟨n, x, d, rfl, rfl, -⟩ := Finding.resolution?_eq_some.mp hentry
  simpa using (h n x d hf).symm

end ResolutionTable

theorem Program.key_mem_keys {q : Program Node} {a : Access Node} (h : a ∈ Program.accesses q) :
    a.note.key ∈ Program.keys q := by
  obtain ⟨d, hd⟩ := (Program.exists_access_finding false [] _).mpr ⟨a, h, rfl, rfl⟩
  obtain ⟨site, hsite, haccess⟩ := (Program.access_mem_findings .top _).mp hd
  rw [← (Program.sites_perm .top q).mem_iff]
  exact List.mem_map.mpr ⟨site, hsite, Site.key_of_access? haccess⟩

/-- A table has entries only for nodes of the program. -/
theorem ResolutionTable.getElem?_ofFindings_of_notMem {q : Program Node} {k : Nat}
    (h : k ∉ Program.keys q) : (ofFindings (Program.findings false [] q).1)[k]? = none := by
  refine getElem?_ofFindings_eq_none fun n x d hd heq => h ?_
  obtain ⟨a, ha, rfl, -⟩ := (Program.exists_access_finding false [] q).mp ⟨d, hd⟩
  rw [← heq]
  exact Program.key_mem_keys ha

theorem getElem?_resolve_eq_none {known : List Name} {reportUndefined : Bool} {q : Program Node}
    {k : Nat} (h : k ∉ Program.keys q) : (resolve known reportUndefined q).table[k]? = none := by
  rw [table_resolve]
  exact ResolutionTable.getElem?_ofFindings_of_notMem h

end Lox
