import Lox.Proofs.Command.Rekeyed
import Lox.Proofs.Session.Passing

/-! Sessions that differ only in the keys of their programs. They answer alike, and go on to differ
in nothing else: each input is new to both tables, and its program has the same findings in both. -/

namespace Lox

private theorem Program.exists_of_map_eq_expression {α β : Type} {f : α → β} {p : Program α} {n : β}
    {e : Expr β} (h : Program.map f p = [.expression n e]) : ∃ m e', p = [.expression m e'] := by
  match p with
  | [.expression m e'] => exact ⟨m, e', rfl⟩
  | [.ifElse _ _ _ none] | [.ifElse _ _ _ (some _)] | [.print ..] | [.varDecl ..] | [.block ..]
  | [.whileLoop ..] | [.funDecl ..] | [.returnStmt ..] | [] | _ :: _ :: _ =>
    simp [Program.map, Stmt.map] at h

namespace Session

/-- The table has no entry for keys that are still to be given. -/
def Unused (table : ResolutionTable) (k : Nat) : Prop := ∀ key, k ≤ key → table[key]? = none

section

variable {table : ResolutionTable} {k key : Nat} {p : Program Node}

private theorem Unused.getElem?_merge (h : Unused table k) (resolves : Bool) (hkey : k ≤ key) :
    (table.merge (found resolves p))[key]? = (found resolves p)[key]? := by
  rw [ResolutionTable.getElem?_merge, h key hkey]
  exact Option.or_none

theorem getElem?_merge_found (resolves : Bool) (h : key ∉ Program.keys p) :
    (table.merge (found resolves p))[key]? = table[key]? := by
  rw [ResolutionTable.getElem?_merge, getElem?_found_eq_none resolves h]
  rfl

private theorem Unused.merge (h : Unused table k) (resolves : Bool) {k' : Nat}
    (hp : Drawn k k' (Program.notes p)) : Unused (table.merge (found resolves p)) k' := by
  intro key hkey
  rw [getElem?_merge_found resolves fun hmem => Nat.not_lt.mpr hkey (hp.keys_range hmem).2]
  exact h key (Nat.le_trans hp.le hkey)

end

def rekeying (s s' : Session) : Rekeying := ⟨s.table, s.nextKey, s'.table, s'.nextKey⟩

/-- Two sessions that are the same but for the keys of their programs. -/
structure Alike (s s' : Session) : Prop where
  resolves : s.resolves = s'.resolves
  globals : s.globals = s'.globals
  state : (s.rekeying s').StateAlike s.state s'.state
  unused : Unused s.table s.nextKey
  unused' : Unused s'.table s'.nextKey

/-- Answers of two such sessions that look the same. -/
structure AnswerAlike (a a' : Answer) : Prop where
  ok : a.ok = a'.ok
  transcript : a.transcript = a'.transcript
  session : a.session.Alike a'.session

section

variable {g : Rekeying} {s s' : State} {v v' : Value}

/-- Runs that end in the same way, in states that are alike. -/
inductive OutcomeAlike (g : Rekeying) {α : Type} : Outcome α → Outcome α → Prop where
  | done {a t t'} : g.StateAlike t t' → OutcomeAlike g (.done a t) (.done a t')
  | failed {e t t'} : g.StateAlike t t' → OutcomeAlike g (.failed e t) (.failed e t')
  | exhausted : OutcomeAlike g .exhausted .exhausted

private theorem echo_alike (h : g.ValueAlike v v') : echo v = echo v' := by
  have htext := h.text_eq Rekeying.ClosureAlike.resembles_of
  cases h with
  | same => rfl
  | function => simp only [echo, htext]

/-- What is shown of the answer of the task that a program comes down to. -/
def shown : Lox.Answer → Transcript
  | .value v => echo v
  | _ => []

theorem evaluate_expression (ctx : Context) (work : Nat) (n : Node) (e : Expr Node) :
    evaluate ctx work [.expression n e] s =
      (ctx.run work (.evaluate ctx.globals e) s).map shown := by
  rw [evaluate, Context.run]
  simp only [bind, Eval.bind, pure, Eval.pure]
  cases ctx.evaluate work ctx.globals e s <;> rfl

theorem evaluate_statements (ctx : Context) (work : Nat) {p : Program Node}
    (hp : ∀ n e, p ≠ [.expression n e]) :
    evaluate ctx work p s = (ctx.run work (.executeAll ctx.globals p) s).map shown := by
  rw [evaluate, Context.run]
  · simp only [bind, Eval.bind, pure, Eval.pure, Context.interpret]
    cases ctx.executeAll work ctx.globals p s <;> rfl
  · exact hp

private theorem OutcomeAlike.of_outcomes {o o' : Outcome Lox.Answer}
    (h : g.coupling.Outcomes o o') : OutcomeAlike g (o.map shown) (o'.map shown) := by
  cases h with
  | failed e ht => exact .failed ht
  | exhausted => exact .exhausted
  | @done a a' t t' ha ht =>
    have hshown : shown a = shown a' := by
      cases ha with
      | value hv => exact echo_alike hv
      | _ => rfl
    rw [Outcome.map, Outcome.map, hshown]
    exact .done ht

/-- A program evaluates alike in two contexts whose tables say the same of its accesses. -/
theorem evaluate_alike {p : Program Twin} {host : Host} (globals : Environment) (work : Nat)
    (hhost : host.Uniform) (hp : g.Agrees (Program.accesses p)) (hs : g.StateAlike s s') :
    OutcomeAlike g
      (evaluate ⟨globals, g.table, host⟩ work (Program.map Twin.left p) s)
      (evaluate ⟨globals, g.table', host⟩ work (Program.map Twin.right p) s') := by
  have hkept := Rekeying.coupling_kept (g := g) globals hhost
  by_cases hlone : ∃ n e, p = [.expression n e]
  · obtain ⟨n, e, rfl⟩ := hlone
    have he : g.Agrees e.accesses := (Rekeying.agrees_append.mp hp).1
    have hmap (f : Twin → Node) :
        Program.map f [.expression n e] = [.expression (f n) (e.map f)] := rfl
    rw [hmap, hmap, evaluate_expression, evaluate_expression]
    exact .of_outcomes (hkept.run work (.evaluate he) hs)
  · have hmap (f : Twin → Node) (n : Node) (e : Expr Node) :
        Program.map f p ≠ [.expression n e] :=
      fun heq => hlone (Program.exists_of_map_eq_expression heq)
    rw [evaluate_statements _ _ (hmap _), evaluate_statements _ _ (hmap _)]
    exact .of_outcomes (hkept.run work (.executeAll hp) hs)

end

section

variable {s s' : Session}

theorem Alike.describe_eq (h : s.Alike s') : s.describe = s'.describe := by
  have hnames : s.state.store.names s.globals = s'.state.store.names s'.globals := by
    rw [← h.globals]
    cases s.globals with
    | nil => rfl
    | cons i outer => exact Frame.Rel.names_eq (h.state.frames i)
  unfold describe
  rw [hnames]
  refine List.filterMap_congr fun x _ => ?_
  have hvalue : Option.Rel (s.rekeying s').ValueAlike (s.state.store.get? s.globals x)
      (s'.state.store.get? s'.globals x) := by
    unfold Store.get?
    rw [← h.globals, ← h.state.storeHolder?_eq]
    cases s.state.store.holder? x s.globals with
    | none => exact .none
    | some i => exact Frame.Rel.lookup (h.state.frames i) x
  generalize s.state.store.get? s.globals x = found at hvalue
  generalize s'.state.store.get? s'.globals x = found' at hvalue
  cases hvalue with
  | none => rfl
  | @some v v' hv =>
    have htext := hv.text_eq Rekeying.ClosureAlike.resembles_of
    cases hv with
    | same => rfl
    | function => simp only [htext]

theorem Alike.skip (h : s.Alike s') {k : Nat} (hk : s.nextKey ≤ k) {k' : Nat}
    (hk' : s'.nextKey ≤ k') :
    Alike { s with nextKey := k } { s' with nextKey := k' } where
  resolves := h.resolves
  globals := h.globals
  state := h.state.mono ⟨hk, hk', fun _ _ => rfl, fun _ _ => rfl⟩
  unused key hkey := h.unused key (Nat.le_trans hk hkey)
  unused' key hkey := h.unused' key (Nat.le_trans hk' hkey)

/-- The tables that two sessions have once they run the programs that they have read. -/
def running (s s' : Session) (read read' : Program Node × Nat) : Rekeying where
  table := s.table.merge (found s.resolves read.1)
  bound := read.2
  table' := s'.table.merge (found s'.resolves read'.1)
  bound' := read'.2

private theorem grows_running {read read' : Program Node × Nat}
    (hread : Drawn s.nextKey read.2 (Program.notes read.1))
    (hread' : Drawn s'.nextKey read'.2 (Program.notes read'.1)) :
    (s.rekeying s').Grows (s.running s' read read') where
  bound := hread.le
  bound' := hread'.le
  table _ hkey := getElem?_merge_found s.resolves fun hmem =>
    Nat.not_lt.mpr (hread.keys_range hmem).1 hkey
  table' _ hkey := getElem?_merge_found s'.resolves fun hmem =>
    Nat.not_lt.mpr (hread'.keys_range hmem).1 hkey

variable {t : Program Twin} {k k' : Nat}

/-- Both tables say the same of the program, which neither session had before. -/
theorem Alike.agrees_running (h : s.Alike s')
    (hread : Drawn s.nextKey k (Program.notes (Program.map Twin.left t)))
    (hread' : Drawn s'.nextKey k' (Program.notes (Program.map Twin.right t))) :
    (s.running s' (Program.map Twin.left t, k) (Program.map Twin.right t, k')).Agrees
      (Program.accesses t) := by
  intro a ha
  obtain ⟨hkey, hkey'⟩ := Program.twin_keys ha
  have hrange := hread.keys_range hkey
  have hrange' := hread'.keys_range hkey'
  refine ⟨hrange.2, hrange'.2, ?_⟩
  unfold running
  rw [h.unused.getElem?_merge _ hrange.1, h.unused'.getElem?_merge _ hrange'.1, h.resolves]
  exact found_twin _ hread.nodup hread'.nodup ha

private theorem Alike.runProgram (h : s.Alike s') {host : Host} (hhost : host.Uniform) (work : Nat)
    (hread : Drawn s.nextKey k (Program.notes (Program.map Twin.left t)))
    (hread' : Drawn s'.nextKey k' (Program.notes (Program.map Twin.right t))) :
    let g := s.running s' (Program.map Twin.left t, k) (Program.map Twin.right t, k')
    Option.Rel AnswerAlike
      (s.runProgram host work (Program.map Twin.left t) g.table g.bound)
      (s'.runProgram host work (Program.map Twin.right t) g.table' g.bound') := by
  intro g
  have hevaluate := evaluate_alike s.globals work hhost (h.agrees_running hread hread')
    (h.state.mono (grows_running hread hread'))
  nth_rewrite 2 [h.globals] at hevaluate
  have hlater {u u' : State} (hu : g.StateAlike u u') :
      Alike { s with state := u.resumed, table := g.table, nextKey := g.bound }
        { s' with state := u'.resumed, table := g.table', nextKey := g.bound' } :=
    { resolves := h.resolves, globals := h.globals
      state := { hu with output := rfl, calls := rfl }
      unused := h.unused.merge s.resolves hread
      unused' := h.unused'.merge s'.resolves hread' }
  unfold Session.runProgram
  generalize evaluate ⟨s.globals, g.table, host⟩ work _ s.state = o at hevaluate ⊢
  generalize evaluate ⟨s'.globals, g.table', host⟩ work _ s'.state = o' at hevaluate ⊢
  cases hevaluate with
  | exhausted => exact .none
  | @done echoed u u' hu =>
    dsimp only
    rw [hu.output]
    exact .some ⟨rfl, rfl, hlater hu⟩
  | @failed e u u' hu =>
    dsimp only
    rw [hu.output]
    exact .some ⟨rfl, rfl, hlater hu⟩

/-- Sessions that are alike answer alike. -/
theorem Alike.run (h : s.Alike s') {host : Host} (hhost : host.Uniform) (work : Nat)
    (input : Text) :
    Option.Rel AnswerAlike (s.run host work input) (s'.run host work input) := by
  have hpasses : passes s'.resolves input = passes s.resolves input := by rw [h.resolves]
  have hread := drawn_parseKeyed s.nextKey input
  have hread' := drawn_parseKeyed s'.nextKey input
  rw [run_eq, run_eq, hpasses]
  cases passes s.resolves input with
  | true =>
    rw [if_pos rfl, if_pos rfl]
    have hplaces := (map_parseKeyed s.nextKey input).trans (map_parseKeyed s'.nextKey input).symm
    obtain ⟨t, hleft, hright⟩ := Program.exists_twin hplaces
    rw [← hleft] at hread ⊢
    rw [← hright] at hread' ⊢
    exact h.runProgram hhost work hread hread'
  | false =>
    rw [if_neg Bool.false_ne_true, if_neg Bool.false_ne_true]
    refine .some ⟨rfl, ?_, h.skip hread.le hread'.le⟩
    rw [h.resolves]
    exact complaints_parseKeyed _ _ _ _

/-- An input that is refused leaves no trace. -/
theorem Alike.run_refused (h : s.Alike s') {input : Text}
    (hpasses : passes s.resolves input = false) (host : Host) (work : Nat) :
    ∃ a, s.run host work input = some a ∧ a.session.Alike s' := by
  rw [run_eq, if_neg (by simp [hpasses])]
  exact ⟨_, rfl, h.skip (drawn_parseKeyed s.nextKey input).le (Nat.le_refl _)⟩

end

/-- Sessions without definitions are alike, whatever keys they start from. -/
theorem alike_fresh (resolves : Bool) (k k' : Nat) :
    (fresh resolves k).Alike (fresh resolves k') := by
  exact ⟨rfl, rfl, Command.stateAlike_start _, fun _ _ => Std.TreeMap.getElem?_emptyc,
    fun _ _ => Std.TreeMap.getElem?_emptyc⟩

end Session

end Lox
