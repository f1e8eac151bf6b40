import Lox.Proofs.Resolution.Split
import Lox.Proofs.Run.Agree
import Lox.Proofs.Run.ReturnFree

/-! Programs that run in parts, as the inputs of a session do. Each part is resolved on its own and
runs with the resolutions of all parts so far, and a later part may call the functions of an earlier
one. Because no access of one part has a key of another, this comes to the same as running the
program whole. -/

namespace Lox

namespace Program

variable {p : Place} {q : Program Node}

theorem exists_access_of_site {site : Site} (hsite : site ∈ sites p q) {n : Node} {x : Name}
    (hx : site.code.access? = some (n, x)) : ∃ a ∈ accesses q, a.note = n ∧ a.name = x :=
  (exists_access_finding p.inFunction p.scopes q).mp
    ⟨_, (access_mem_findings p q).mpr ⟨site, hsite, Site.access?_eq_some.mpr ⟨hx, rfl⟩⟩⟩

private theorem exists_site_of_access {a : Access Node} (ha : a ∈ accesses q) :
    ∃ site ∈ sites p q, site.code.access? = some (a.note, a.name) := by
  obtain ⟨d, hd⟩ := (exists_access_finding p.inFunction p.scopes q).mpr ⟨a, ha, rfl, rfl⟩
  obtain ⟨site, hsite, haccess⟩ := (access_mem_findings p q).mp hd
  exact ⟨site, hsite, (Site.access?_eq_some.mp haccess).1⟩

end Program

/-- No access of the program has one of the keys. -/
def Program.Avoids (keys : List Nat) (p : Program Node) : Prop :=
  ∀ a ∈ Program.accesses p, a.note.key ∉ keys

/-- No access of a function in the store has one of the keys. -/
def State.Avoids (keys : List Nat) (s : State) : Prop :=
  ∀ i x c, (s.store.frame i).lookup x = some (.function c) → Program.Avoids keys c.body

namespace Course

variable {r : Course} {keys : List Nat}

/-- The run comes only to accesses of the program and of the functions that were there before. -/
theorem Visits.access_notMem {v : Visit} (hv : r.Visits v) (hhost : r.ctx.host.Faithful)
    (hglobals : ∀ i ∈ r.ctx.globals, i < r.start.store.frames.size)
    (hprogram : Program.Avoids keys r.program) (hstart : r.start.Avoids keys) {env : Environment}
    {n : Node} {x : Name} (hx : v.task.access? = some (env, n, x)) : n.key ∉ keys := by
  obtain ⟨w, -, -, hfits⟩ := hv.fits hhost hglobals
  obtain ⟨e, he, home, p, hsites, henv, -⟩ := hfits.access hx
  have hsite := hsites List.mem_cons_self
  cases home with
  | program =>
    obtain ⟨a, ha, rfl, -⟩ := Program.exists_access_of_site hsite he
    exact hprogram a ha
  | guest c =>
    obtain ⟨i, y, hc⟩ := henv.1
    obtain ⟨a, ha, rfl, -⟩ := Program.exists_access_of_site hsite he
    exact hstart i y c hc a ha

private theorem FitsClosure.avoids (hprogram : Program.Avoids keys r.program)
    (hstart : r.start.Avoids keys) {w : World} {c : Closure} (h : r.FitsClosure w c) :
    Program.Avoids keys c.body := by
  have hpart {p p' : Place} {q : Program Node} {body : Program Node} (hq : Program.Avoids keys q)
      (hsites : Program.sites p' body ⊆ Program.sites p q) : Program.Avoids keys body := by
    intro a ha
    obtain ⟨site, hsite, hx⟩ := Program.exists_site_of_access (p := p') ha
    obtain ⟨b, hb, hnote, -⟩ := Program.exists_access_of_site (hsites hsite) hx
    rw [← hnote]
    exact hq b hb
  cases h with
  | program _ hsites _ => exact hpart hprogram hsites
  | guest hguest _ hsites =>
    obtain ⟨i, x, hc⟩ := hguest
    exact hpart (hstart i x _ hc) hsites

/-- Afterwards the store holds only functions of the program besides those from before. -/
theorem avoids_of_done (hhost : r.ctx.host.Faithful)
    (hglobals : ∀ i ∈ r.ctx.globals, i < r.start.store.frames.size)
    (hprogram : Program.Avoids keys r.program) (hstart : r.start.Avoids keys) {a : Answer}
    {t : State} (ho : r.ctx.outcome r.root = .done a t) : t.Avoids keys := by
  obtain ⟨w, -, ⟨hstore, hsound⟩, -⟩ := (preserves hhost).answers r.root.task r.root.state _ .refl
    holds_firstWorld (fits_root hglobals) a t ho
  intro i x c hc
  rw [← hstore] at hc
  exact (hsound.values i x _ hc c rfl).avoids hprogram hstart

end Course

/-- Two tables that differ only in the entries for some keys let a program run in the same way, if
no access has one of these keys. -/
theorem Context.run_eq_of_table {ctx ctx' : Context} {keys : List Nat} {p : Program Node}
    {s : State} (hglobals : ctx.globals = ctx'.globals) (hhost : ctx.host = ctx'.host)
    (htable : ∀ key ∉ keys, ctx.table[key]? = ctx'.table[key]?) (hfaithful : ctx.host.Faithful)
    (hsize : ∀ i ∈ ctx.globals, i < s.store.frames.size) (hp : Program.Avoids keys p)
    (hs : s.Avoids keys) (work : Nat) :
    ctx.run work (.executeAll ctx.globals p) s = ctx'.run work (.executeAll ctx'.globals p) s := by
  let r : Course := ⟨ctx, p, work, s⟩
  have hplan : ∀ v, ctx.Reaches r.root v → ctx.plan v.task v.state = ctx'.plan v.task v.state := by
    intro v hv
    refine plan_congr hhost fun env n x hx => ?_
    have hkey : n.key ∉ keys := Course.Visits.access_notMem (r := r) hv hfaithful hsize hp hs hx
    rw [holder?, holder?, htable n.key hkey, hglobals]
  rw [← hglobals]
  exact run_congr hplan r.root.task r.root.state .refl

/-- Runs the parts of a program as the inputs of one session, which stops at the first error. Each
part is resolved among the globals that there are by then. -/
def Context.interpretParts (globals : Environment) (host : Host) (work : Nat) :
    ResolutionTable → List (Program Node) → Eval Unit
  | _, [] => pure ()
  | table, part :: rest => do
    let known ← Eval.ask fun store => store.names globals
    let table := table.merge (resolve known false part).table
    Context.interpret ⟨globals, table, host⟩ work part
    interpretParts globals host work table rest

section

variable {globals : Environment} {host : Host} {table : ResolutionTable} {part : Program Node}
  {parts : List (Program Node)} {s : State} {o : Outcome Unit}

private theorem Context.steady_interpretParts (table : ResolutionTable)
    (parts : List (Program Node))
    (s : State) : Steady fun work => interpretParts globals host work table parts s := by
  induction parts generalizing table s with
  | nil => exact fun _ _ _ _ => rfl
  | cons part rest ih => exact (steady_interpret part s).bind fun _ t _ => ih _ t

private theorem Context.ends_interpretParts_cons :
    let table' := table.merge (.ofFindings (Program.findings false [] part).1)
    Ends (fun work => interpretParts globals host work table (part :: parts) s) o ↔
      (∃ t, Ends (fun work => interpret ⟨globals, table', host⟩ work part s) (.done () t) ∧
        Ends (fun work => interpretParts globals host work table' parts t) o) ∨
      ∃ e t, o = .failed e t ∧
        Ends (fun work => interpret ⟨globals, table', host⟩ work part s) (.failed e t) := by
  intro table'
  let ctx : Context := ⟨globals, table', host⟩
  have hbind : (fun work => interpretParts globals host work table (part :: parts) s) = fun work =>
      (ctx.interpret work part >>= fun _ => interpretParts globals host work table' parts) s := by
    funext work
    simp only [interpretParts, table_resolve]
    rfl
  have hparts : Ends (fun work => interpretParts globals host work table (part :: parts) s) o ↔ _ :=
    hbind ▸ ends_bind (steady_interpret part s) fun _ t _ => steady_interpretParts table' parts t
  exact hparts.trans (or_congr_left ⟨fun ⟨_, t, h⟩ => ⟨t, h⟩, fun ⟨t, h⟩ => ⟨(), t, h⟩⟩)

/-- The statements of a program and those behind them are interpreted one after the other. -/
theorem Context.ends_interpret_append {ctx : Context} {p q : Program Node}
    (hreturn : ∀ l, .fault .topLevelReturn l ∉ (Program.findings false [] p).1) :
    Ends (fun work => ctx.interpret work (p ++ q) s) o ↔
      (∃ t, Ends (fun work => ctx.interpret work p s) (.done () t) ∧
        Ends (fun work => ctx.interpret work q t) o) ∨
      ∃ e t, o = .failed e t ∧ Ends (fun work => ctx.interpret work p s) (.failed e t) := by
  rw [ends_interpret]
  constructor
  · rintro ⟨o', h, rfl⟩
    rcases yields_append.mp h with ⟨t, ht, h⟩ | ⟨hstops, h⟩
    · exact .inl ⟨t, (ends_interpret_done hreturn).mpr ht, ends_interpret.mpr ⟨o', h, rfl⟩⟩
    · cases o' with
      | failed e t => exact .inr ⟨e, t, rfl, ends_interpret_failed.mpr h⟩
      | exhausted => exact hstops.elim
      | done a t =>
        obtain ⟨-, work, hwork⟩ := h
        cases completes hwork ⟨[], hreturn⟩
        exact hstops.elim
  · rintro (⟨t, ht, h⟩ | ⟨e, t, rfl, h⟩)
    · obtain ⟨o', hrest, rfl⟩ := ends_interpret.mp h
      exact ⟨o', yields_append.mpr (.inl ⟨t, (ends_interpret_done hreturn).mp ht, hrest⟩), rfl⟩
    · exact ⟨.failed e t, yields_append.mpr (.inr ⟨trivial, ends_interpret_failed.mp h⟩), rfl⟩

/-- A program that ends normally leaves only functions that avoid the keys, and no fewer frames. -/
theorem Context.avoids_of_interpret {ctx : Context} {keys : List Nat} {p : Program Node} {t : State}
    (hhost : ctx.host.Faithful) (hsize : ∀ i ∈ ctx.globals, i < s.store.frames.size)
    (hp : Program.Avoids keys p) (hs : s.Avoids keys)
    (h : Ends (fun work => ctx.interpret work p s) (.done () t)) :
    t.Avoids keys ∧ ∀ i ∈ ctx.globals, i < t.store.frames.size := by
  obtain ⟨-, work, hwork⟩ := h
  dsimp only at hwork
  rw [interpret_eq_run] at hwork
  cases ho : ctx.run work (.executeAll ctx.globals p) s with
  | done a u =>
    rw [ho] at hwork
    cases hwork
    refine ⟨Course.avoids_of_done (r := ⟨ctx, p, work, s⟩) hhost hsize hp hs ho, fun i hi => ?_⟩
    exact Nat.lt_of_lt_of_le (hsize i hi) (run_grows (congrArg Outcome.state? ho)).size
  | _ => rw [ho] at hwork; cases hwork

private theorem Context.interpret_eq_of_table {table' : ResolutionTable} {keys : List Nat}
    {p : Program Node} (htable : ∀ key ∉ keys, table[key]? = table'[key]?) (hhost : host.Faithful)
    (hsize : ∀ i ∈ globals, i < s.store.frames.size) (hp : Program.Avoids keys p)
    (hs : s.Avoids keys) :
    (fun work => interpret ⟨globals, table, host⟩ work p s) =
      fun work => interpret ⟨globals, table', host⟩ work p s := by
  let ctx : Context := ⟨globals, table, host⟩
  let ctx' : Context := ⟨globals, table', host⟩
  funext work
  rw [interpret_eq_run, interpret_eq_run]
  have hglobals : ctx.globals = ctx'.globals := rfl
  have hhosts : ctx.host = ctx'.host := rfl
  have hrun := run_eq_of_table hglobals hhosts htable hhost hsize hp hs work
  exact congrArg (Outcome.map fun _ => ()) hrun

theorem State.Avoids.mono {keys keys' : List Nat} (h : s.Avoids keys) (hsub : keys' ⊆ keys) :
    s.Avoids keys' :=
  fun i x c hc a ha hmem => h i x c hc a ha (hsub hmem)

/-- Parts that run one after the other end as the whole program does. -/
theorem Context.ends_interpretParts (hkeys : (Program.keys parts.flatten).Nodup)
    (hreturn : ∀ l, .fault .topLevelReturn l ∉ (Program.findings false [] parts.flatten).1)
    (hhost : host.Faithful) (hsize : ∀ i ∈ globals, i < s.store.frames.size)
    (hs : s.Avoids (Program.keys parts.flatten)) :
    let whole := table.merge (.ofFindings (Program.findings false [] parts.flatten).1)
    Ends (fun work => interpretParts globals host work table parts s) o ↔
      Ends (fun work => interpret ⟨globals, whole, host⟩ work parts.flatten s) o := by
  induction parts generalizing table s with
  | nil =>
    have hwhole (ctx : Context) (work : Nat) :
        ctx.interpret (work + 1) [] s = .done () s := rfl
    constructor
    · rintro ⟨hne, work, rfl⟩
      exact ⟨hne, 1, hwhole _ 0⟩
    · rw [ends_interpret]
      rintro ⟨o', h, rfl⟩
      cases yields_nil.mp h
      exact ⟨Outcome.done_ne_exhausted () s, 0, rfl⟩
  | cons part rest ih =>
    intro whole
    rw [List.flatten_cons, Program.keys_append] at hkeys hs
    rw [List.flatten_cons, Program.findings_append] at hreturn
    have hrest := (List.nodup_append'.mp hkeys).2.1
    have happart := (List.nodup_append'.mp hkeys).2.2
    have hreturns := fun l => not_or.mp (mt List.mem_append.mpr (hreturn l))
    let first := table.merge (.ofFindings (Program.findings false [] part).1)
    have hwhole (key : Nat) : whole[key]? =
        (first.merge (.ofFindings (Program.findings false [] rest.flatten).1))[key]? := by
      rw [← ResolutionTable.getElem?_merge_append, ← Program.findings_append]
      rfl
    have hpart : Program.Avoids (Program.keys rest.flatten) part :=
      fun a ha => happart (Program.key_mem_keys ha)
    have hs₁ : s.Avoids (Program.keys rest.flatten) := hs.mono (List.subset_append_right _ _)
    -- the first part does not see the entries of the others
    have hsame : (fun work => interpret ⟨globals, first, host⟩ work part s) =
        fun work => interpret ⟨globals, whole, host⟩ work part s := by
      refine interpret_eq_of_table (fun key hkey => ?_) hhost hsize hpart hs₁
      rw [hwhole, ResolutionTable.getElem?_merge first,
        ResolutionTable.getElem?_ofFindings_of_notMem hkey]
      rfl
    have hlater (t : State)
        (ht : Ends (fun work => interpret ⟨globals, first, host⟩ work part s) (.done () t)) :
        Ends (fun work => interpretParts globals host work first rest t) o ↔
          Ends (fun work => interpret ⟨globals, whole, host⟩ work rest.flatten t) o := by
      obtain ⟨ht₁, htsize⟩ := avoids_of_interpret hhost hsize hpart hs₁ ht
      have hnone : Program.Avoids [] rest.flatten := fun _ _ => List.not_mem_nil
      have htable := interpret_eq_of_table (fun key _ => hwhole key) hhost htsize hnone
        (ht₁.mono (List.nil_subset _))
      rw [htable]
      exact ih hrest (fun l => (hreturns l).2) htsize ht₁
    rw [List.flatten_cons, ends_interpret_append fun l => (hreturns l).1, ← hsame]
    refine ends_interpretParts_cons.trans (or_congr_left (exists_congr fun t => ?_))
    exact and_congr_right fun ht => hlater t ht

end

namespace ResolutionTable

private theorem getElem?_ofFindings_append (findings others : List Finding) (key : Nat) :
    (ofFindings (findings ++ others))[key]? =
      (ofFindings others)[key]?.or (ofFindings findings)[key]? := by
  simp only [getElem?_ofFindings, List.filterMap_append, List.reverse_append, List.lookup_append]

/-- Every access of a program has an entry. -/
theorem exists_entry {p : Program Node} {a : Access Node} (ha : a ∈ Program.accesses p) :
    ∃ r, (ofFindings (Program.findings false [] p).1)[a.note.key]? = some r := by
  obtain ⟨d, hd⟩ := (Program.exists_access_finding false [] p).mpr ⟨a, ha, rfl, rfl⟩
  rw [getElem?_ofFindings, ← Option.isSome_iff_exists, Option.isSome_iff_ne_none]
  intro hnone
  have hentry : (a.note.key, Resolution.ofDepth d) ∈
      (Program.findings false [] p).1.filterMap Finding.resolution? :=
    List.mem_filterMap.mpr ⟨_, hd, Finding.resolution?_eq_some.mpr ⟨_, _, d, rfl, rfl, rfl⟩⟩
  have hne := List.lookup_eq_none_iff.mp hnone _ (List.mem_reverse.mpr hentry)
  simp at hne

/-- A part has the entries that the whole program has for it. -/
theorem getElem?_part {parts : List (Program Node)} (hkeys : (Program.keys parts.flatten).Nodup)
    {part : Program Node} (hpart : part ∈ parts) {a : Access Node}
    (ha : a ∈ Program.accesses part) :
    (ofFindings (Program.findings false [] parts.flatten).1)[a.note.key]? =
      (ofFindings (Program.findings false [] part).1)[a.note.key]? := by
  induction parts with
  | nil => cases hpart
  | cons first rest ih =>
    rw [List.flatten_cons, Program.keys_append, List.nodup_append'] at hkeys
    rw [List.flatten_cons, Program.findings_append, getElem?_ofFindings_append]
    rcases List.mem_cons.mp hpart with rfl | hpart
    · rw [getElem?_ofFindings_of_notMem (hkeys.2.2 (Program.key_mem_keys ha))]
      rfl
    · rw [ih hkeys.2.1 hpart]
      obtain ⟨r, hr⟩ := exists_entry ha
      rw [hr]
      rfl

end ResolutionTable

private theorem resolve_flatten (known : List Name) (parts : List (List Name × Program Node)) :
    (resolve known false (parts.map Prod.snd).flatten).diagnostics =
      parts.flatMap fun part => (resolve part.1 false part.2).diagnostics := by
  induction parts with
  | nil => rfl
  | cons part rest ih =>
    rw [resolve_unreported] at ih
    rw [List.flatMap_cons, ← ih, resolve_unreported, resolve_unreported, List.map_cons,
      List.flatten_cons, Program.findings_append, List.filterMap_append]

/-- However a program is cut into parts, each given with the names of the globals known there: the
parts together give the diagnostics of the program and bind every access as it does; and if there
are no diagnostics, to run the parts one after the other comes to the same as to run the program. -/
theorem parts_agree {p : Program Node} (hkeys : (Program.keys p).Nodup)
    {parts : List (List Name × Program Node)} (hparts : (parts.map Prod.snd).flatten = p)
    (known : List Name) :
    let whole := resolve known false p
    whole.diagnostics = parts.flatMap (fun part => (resolve part.1 false part.2).diagnostics) ∧
    (∀ part ∈ parts, ∀ a ∈ Program.accesses part.2, ∃ r, whole.table[a.note.key]? = some r ∧
      (resolve part.1 false part.2).table[a.note.key]? = some r) ∧
    (whole.diagnostics = [] → ∀ (globals : Environment) (host : Host) (table : ResolutionTable)
      (s : State), host.Faithful → (∀ i ∈ globals, i < s.store.frames.size) →
      s.Avoids (Program.keys p) →
      ∀ o, Ends (fun work => Context.interpretParts globals host work table
          (parts.map Prod.snd) s) o ↔
        Ends (fun work => Context.interpret ⟨globals, table.merge whole.table, host⟩ work p s)
          o) := by
  intro whole
  subst hparts
  refine ⟨?_, fun part hpart a ha => ?_, fun hclean globals host table s hhost hsize hs o => ?_⟩
  · exact resolve_flatten known parts
  · obtain ⟨r, hr⟩ := ResolutionTable.exists_entry ha
    rw [table_resolve, table_resolve]
    have hsame := ResolutionTable.getElem?_part hkeys (List.mem_map_of_mem hpart) ha
    exact ⟨r, hsame.trans hr, hr⟩
  · rw [table_resolve]
    exact Context.ends_interpretParts hkeys (no_fault_of_diagnostics hclean _) hhost hsize hs

theorem parts_agree_late_global :
    ∃ p, parseKeyed? firstKey "fun f() { return x; } var x = 1; print f();" = .ok p ∧
      p.length = 3 ∧
      let table := (resolve ["clock"] false p).table
      let host := Host.standard (.stopped Number.zero)
      ∀ o, Ends (fun work => Context.interpretParts Command.start.1 host work ∅
          [p.take 1, p.drop 1] Command.start.2) o ↔
        Ends (fun work => Context.interpret
          ⟨Command.start.1, (∅ : ResolutionTable).merge table, host⟩ work p Command.start.2) o := by
  obtain ⟨p, hparse, hlength, hclean⟩ :
      ∃ p, parseKeyed? firstKey "fun f() { return x; } var x = 1; print f();" = .ok p ∧
        p.length = 3 ∧ (resolve ["clock"] false p).diagnostics = [] :=
    exists_parseKeyed?_of_any (by decide +kernel)
  refine ⟨p, hparse, hlength, ?_⟩
  intro table host o
  let parts : List (List Name × Program Node) := [(["clock"], p.take 1), ([], p.drop 1)]
  have hparts : (parts.map Prod.snd).flatten = p := by
    change p.take 1 ++ (p.drop 1 ++ []) = p
    rw [List.append_nil, List.take_append_drop]
  have hsize (i : Nat) (hi : i ∈ Command.start.1) : i < Command.start.2.store.frames.size :=
    Store.lt_size_of_mem_root hi
  have havoids : Command.start.2.Avoids (Program.keys p) := by
    intro i x c hc
    obtain ⟨f, hf⟩ := Store.native_of_root hc
    cases hf
  exact (parts_agree (nodup_keys_of_parseKeyed? hparse) hparts ["clock"]).2.2 hclean _ host ∅ _
    (Host.faithful_standard _) hsize havoids o

end Lox
