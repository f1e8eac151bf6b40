import Mathlib.Data.List.Nodup
import Lox.Proofs.Resolution.Site

/-! The table of resolutions has an entry for every access of the program, and it says what the walk
has found at the site of the access. -/

namespace Lox

namespace Scope

variable {n : Node} {x : Name} {d : Option Nat}

theorem access_notMem_declareInner (y : Name) (l : Location) (scopes : List Scope) :
    Finding.access n x d ∉ (declareInner y l scopes).1 := by
  cases scopes with
  | nil => simp [declareInner]
  | cons s outer =>
    rw [declareInner]
    split
    simp

theorem access_notMem_withParams (f : Name) (l : Location) (params : List Name) (s : Scope) :
    Finding.access n x d ∉ (withParams f l params s).1 := by
  induction params generalizing s with
  | nil => simp [withParams]
  | cons p rest ih =>
    simp only [withParams, List.mem_append, not_or]
    refine ⟨?_, ih _⟩
    split <;> simp

end Scope

theorem Site.access?_eq_some {site : Site} {n : Node} {x : Name} {d : Option Nat} :
    site.access? = some (.access n x d) ↔
      site.code.access? = some (n, x) ∧ d = Scope.depth? x site.place.scopes := by
  unfold Site.access?
  rw [Option.map_eq_some_iff]
  constructor
  · rintro ⟨⟨m, y⟩, hcode, heq⟩
    cases heq
    exact ⟨hcode, rfl⟩
  · rintro ⟨hcode, rfl⟩
    exact ⟨(n, x), hcode, rfl⟩

theorem Code.node_of_access? {code : Code} {n : Node} {x : Name}
    (h : code.access? = some (n, x)) : code.node = n := by
  unfold Code.access? at h
  split at h
  · cases h; rfl
  · cases h; rfl
  · cases h

theorem Site.key_of_access? {site : Site} {n : Node} {x : Name} {d : Option Nat}
    (h : site.access? = some (.access n x d)) : site.key = n.key := by
  unfold Site.key
  rw [Code.node_of_access? (Site.access?_eq_some.mp h).1]

/-- One of the sites is an access at which the resolver finds this. -/
def Accesses (sites : List Site) (f : Finding) : Prop := ∃ site ∈ sites, site.access? = some f

section

variable {f : Finding} {site : Site} {sites others : List Site}

@[simp] theorem accesses_nil : ¬ Accesses [] f := by simp [Accesses]

@[simp] theorem accesses_cons :
    Accesses (site :: sites) f ↔ site.access? = some f ∨ Accesses sites f := by
  simp [Accesses]

@[simp] theorem accesses_append :
    Accesses (sites ++ others) f ↔ Accesses sites f ∨ Accesses others f := by
  simp [Accesses, or_and_right, exists_or]

end

section

variable {n : Node} {x : Name} {d : Option Nat}

mutual

theorem Expr.access_mem_findings (p : Place) :
    ∀ e : Expr Node, .access n x d ∈ e.findings p.scopes ↔ Accesses (e.sites p) (.access n x d)
  | .binary _ l _ r => by
    simp [Expr.findings, Expr.sites, Site.access?, Code.access?, l.access_mem_findings p,
      r.access_mem_findings p]
  | .grouping _ e => by
    simp [Expr.findings, Expr.sites, Site.access?, Code.access?, e.access_mem_findings p]
  | .literal .. => by simp [Expr.findings, Expr.sites, Site.access?, Code.access?]
  | .unary _ _ e => by
    simp [Expr.findings, Expr.sites, Site.access?, Code.access?, e.access_mem_findings p]
  | .reference .. => by
    simp [Expr.findings, Expr.sites, Site.access?, Code.access?, eq_comm]
  | .assign _ _ e => by
    simp [Expr.findings, Expr.sites, Site.access?, Code.access?, e.access_mem_findings p, eq_comm,
      or_comm]
  | .logical _ l _ r => by
    simp [Expr.findings, Expr.sites, Site.access?, Code.access?, l.access_mem_findings p,
      r.access_mem_findings p]
  | .call _ c args => by
    simp [Expr.findings, Expr.sites, Site.access?, Code.access?, c.access_mem_findings p,
      Expr.access_mem_findingsAll p args]

theorem Expr.access_mem_findingsAll (p : Place) :
    ∀ es : List (Expr Node), .access n x d ∈ Expr.findingsAll p.scopes es ↔
      Accesses (Expr.sitesAll p es) (.access n x d)
  | [] => by simp [Expr.findingsAll, Expr.sitesAll]
  | e :: rest => by
    simp [Expr.findingsAll, Expr.sitesAll, e.access_mem_findings p,
      Expr.access_mem_findingsAll p rest]

end

private theorem Expr.access_mem_findings? (p : Place) (e : Option (Expr Node)) :
    .access n x d ∈ Expr.findings? p.scopes e ↔ Accesses (Expr.sites? p e) (.access n x d) := by
  cases e with
  | none => simp [Expr.findings?, Expr.sites?]
  | some e => exact e.access_mem_findings p

mutual

theorem Stmt.access_mem_findings (p : Place) :
    ∀ s : Stmt Node, .access n x d ∈ (s.findings p.inFunction p.scopes).1 ↔
      Accesses (s.sites p) (.access n x d)
  | .expression _ e => by
    simp [Stmt.findings, Stmt.sites, Site.access?, Code.access?, e.access_mem_findings p]
  | .print _ e => by
    simp [Stmt.findings, Stmt.sites, Site.access?, Code.access?, e.access_mem_findings p]
  | .varDecl m y e => by
    have he := Expr.access_mem_findings? (n := n) (x := x) (d := d) (p.initializer m y) e
    simp only [Place.initializer] at he
    simp [Stmt.findings, Stmt.sites, Site.access?, Code.access?, Place.initializer, he,
      Scope.access_notMem_declareInner]
  | .block m body => by
    have hbody := Program.access_mem_findings (p.block m body) body
    simp only [Place.block] at hbody
    simp [Stmt.findings, Stmt.sites, Site.access?, Code.access?, Place.block, hbody]
  | .ifElse _ c t none => by
    simp [Stmt.findings, Stmt.sites, Site.access?, Code.access?, c.access_mem_findings p,
      t.access_mem_findings p]
  | .ifElse _ c t (some e) => by
    have he := e.access_mem_findings (p.besides t)
    simp only [Place.besides] at he
    simp [Stmt.findings, Stmt.sites, Site.access?, Code.access?, Place.besides,
      c.access_mem_findings p, t.access_mem_findings p, he]
  | .whileLoop _ c body => by
    simp [Stmt.findings, Stmt.sites, Site.access?, Code.access?, c.access_mem_findings p,
      body.access_mem_findings p]
  | .funDecl m y params body => by
    have hbody := Program.access_mem_findings (p.function m y params body) body
    simp only [Place.function, Place.after, Stmt.findings] at hbody
    simp [Stmt.findings, Stmt.sites, Site.access?, Code.access?, Place.function, Place.after, hbody,
      Scope.access_notMem_declareInner, Scope.access_notMem_withParams]
  | .returnStmt _ e => by
    have he := Expr.access_mem_findings? (n := n) (x := x) (d := d) p e
    by_cases h : p.inFunction <;>
      simp [Stmt.findings, Stmt.sites, Site.access?, Code.access?, he, h]

theorem Program.access_mem_findings (p : Place) :
    ∀ q : Program Node, .access n x d ∈ (Program.findings p.inFunction p.scopes q).1 ↔
      Accesses (Program.sites p q) (.access n x d)
  | [] => by simp [Program.findings, Program.sites]
  | s :: rest => by
    have hrest := Program.access_mem_findings (p.after s) rest
    simp only [Place.after] at hrest
    simp [Program.findings, Program.sites, Place.after, s.access_mem_findings p, hrest]

end

end

/-- Sites with different keys are told apart by them. -/
theorem Site.eq_of_key {sites : List Site} (hkeys : (sites.map Site.key).Nodup) {site other : Site}
    (hsite : site ∈ sites) (hother : other ∈ sites) (hkey : site.key = other.key) :
    site = other :=
  List.inj_on_of_nodup_map hkeys hsite hother hkey

private theorem ResolutionTable.getElem?_foldl {entries : List (Nat × Resolution)} {k : Nat}
    {r : Resolution} (hunique : ∀ r', (k, r') ∈ entries → r' = r) (t : ResolutionTable)
    (h : (k, r) ∈ entries ∨ t[k]? = some r) :
    (entries.foldl (fun t (key, r) => t.insert key r) t)[k]? = some r := by
  induction entries generalizing t with
  | nil => simpa using h
  | cons entry rest ih =>
    obtain ⟨key, r'⟩ := entry
    refine ih (fun r'' hr'' => hunique r'' (List.mem_cons_of_mem _ hr'')) _ ?_
    rw [Std.TreeMap.getElem?_insert]
    by_cases hk : key = k
    · subst hk
      have hr : r' = r := hunique r' List.mem_cons_self
      right
      simp [hr]
    · rcases h with h | h
      · left
        rcases List.mem_cons.mp h with heq | hrest
        · cases heq
          exact absurd rfl hk
        · exact hrest
      · right
        have hcompare : ¬ compare key k = .eq := by simpa using hk
        rw [if_neg hcompare]
        exact h

/-- The entry for an access of which the resolver finds this. -/
def Resolution.ofDepth : Option Nat → Resolution
  | some depth => .atDepth depth
  | none => .global

theorem Finding.resolution?_eq_some {f : Finding} {k : Nat} {r : Resolution} :
    f.resolution? = some (k, r) ↔
      ∃ n x d, f = .access n x d ∧ n.key = k ∧ r = Resolution.ofDepth d := by
  constructor
  · intro h
    cases f with
    | access n x d =>
      refine ⟨n, x, d, rfl, ?_⟩
      cases d with
      | none => cases h; exact ⟨rfl, rfl⟩
      | some depth => cases h; exact ⟨rfl, rfl⟩
    | fault f l => cases h
  · intro h
    obtain ⟨n, x, d, rfl, rfl, rfl⟩ := h
    cases d <;> rfl

/-- The table binds an access to where the walk finds the name. -/
theorem resolve_table {q : Program Node} {known : List Name} {reportUndefined : Bool}
    (hkeys : (Program.keys q).Nodup) {site : Site} (hsite : site ∈ Program.sites .top q)
    {n : Node} {x : Name} {d : Option Nat} (h : site.access? = some (.access n x d)) :
    (resolve known reportUndefined q).table[n.key]? = some (.ofDepth d) := by
  have hmem (m : Node) (y : Name) (d' : Option Nat) :=
    Program.access_mem_findings (n := m) (x := y) (d := d') .top q
  rw [table_resolve]
  refine ResolutionTable.getElem?_foldl (fun r hr => ?_) ∅ (.inl ?_)
  · rw [List.mem_filterMap] at hr
    obtain ⟨f, hf, hr⟩ := hr
    obtain ⟨m, y, d', rfl, hkey, rfl⟩ := Finding.resolution?_eq_some.mp hr
    obtain ⟨other, hother, haccess⟩ := (hmem m y d').mp hf
    have hsame : other = site := by
      refine Site.eq_of_key (Program.nodup_sites .top hkeys) hother hsite ?_
      rw [Site.key_of_access? haccess, Site.key_of_access? h, hkey]
    rw [hsame, h] at haccess
    cases haccess
    rfl
  · rw [List.mem_filterMap]
    refine ⟨.access n x d, (hmem n x d).mpr ⟨site, hsite, h⟩, ?_⟩
    exact Finding.resolution?_eq_some.mpr ⟨n, x, d, rfl, rfl, rfl⟩

/-- The table has an entry for what the walk finds. -/
theorem resolve_table_of_mem {q : Program Node} {known : List Name} {reportUndefined : Bool}
    (hkeys : (Program.keys q).Nodup) {n : Node} {x : Name} {d : Option Nat}
    (h : .access n x d ∈ (Program.findings false [] q).1) :
    (resolve known reportUndefined q).table[n.key]? = some (.ofDepth d) := by
  obtain ⟨site, hsite, haccess⟩ := (Program.access_mem_findings .top q).mp h
  exact resolve_table hkeys hsite haccess

end Lox
