import Lox.Proofs.Json.Quoted
import Lox.Proofs.Parse.FollowProgram
import Lox.Proofs.Resolution.Parsed
import Lox.Proofs.Run.Layers
import Lox.Proofs.Run.Origin

/-! Every error of a run of a source text points at the token to blame for it. -/

namespace Lox

/-- The kinds of the operators that are for numbers, and for texts in one case. -/
def TokenKind.operators : List TokenKind :=
  [.plus, .minus, .star, .slash, .percent, .greater, .greaterEqual, .less, .lessEqual]

/-- The token is one that can be to blame for the fault. -/
def Fault.BlamedOn (t : Token) : Fault → Prop
  | undefinedVariable x => t.kind = .identifier ∧ t.lexeme = x
  | unsupportedOperator _ => t.kind ∈ TokenKind.operators
  | divisionByZero => t.kind = .slash ∨ t.kind = .percent
  | arityMismatch .. | notCallable _ => t.kind = .leftParen
  | worded .. => False

private theorem UnaryOp.Faults.blamedOn {op : UnaryOp} {fault : Fault} (h : op.Faults fault)
    {t : Token} (ht : unaryOps.lookup t.kind = some op) : fault.BlamedOn t := by
  have hmem := mem_of_lookup ht
  cases h with
  | unsupported d =>
    have hkind : ∀ p ∈ unaryOps, p.2 = .negate → p.1 ∈ TokenKind.operators := by decide
    exact hkind _ hmem rfl

private theorem BinaryOp.Faults.blamedOn {op : BinaryOp} {fault : Fault} (h : op.Faults fault)
    {t : Token} {level : List (TokenKind × InfixOp)} (hlevel : level ∈ infixLevels)
    (ht : level.lookup t.kind = some (.binary op)) : fault.BlamedOn t := by
  have hmem : (t.kind, InfixOp.binary op) ∈ infixLevels.flatten :=
    List.mem_flatten_of_mem hlevel (mem_of_lookup ht)
  cases h with
  | divisor hop =>
    have hkind : ∀ p ∈ infixLevels.flatten,
        p.2 = .binary .divide ∨ p.2 = .binary .remainder → p.1 = .slash ∨ p.1 = .percent := by
      decide
    exact hkind _ hmem (by simpa using hop)
  | unsupported d hop =>
    have hkind : ∀ p ∈ infixLevels.flatten, p.2 = .binary .equal ∨ p.2 = .binary .notEqual ∨
        p.2 = .logical .and ∨ p.2 = .logical .or ∨ p.1 ∈ TokenKind.operators := by
      decide
    rcases hkind _ hmem with heq | hne | hand | hor | hoperator
    · exact absurd (InfixOp.binary.inj heq) fun h => hop (by simp [h])
    · exact absurd (InfixOp.binary.inj hne) fun h => hop (by simp [h])
    · cases hand
    · cases hor
    · exact hoperator

/-- The faults of a node that says this by itself. -/
inductive Mark.Faults : Mark → Fault → Prop where
  | access (x) : Faults (.access x) (.undefinedVariable x)
  | unary {op fault} : op.Faults fault → Faults (.unary op) fault
  | binary {op fault} : op.Faults fault → Faults (.binary op) fault
  | arity (name expected received) : Faults .call (.arityMismatch name expected received)
  | notCallable (d) : Faults .call (.notCallable d)

/-- The token that says what a node says is to blame for the faults of the node. -/
theorem Mark.Faults.blamedOn {m : Mark} {fault : Fault} (h : m.Faults fault) {ts : List Token}
    {p : Position} (hm : m.Written ts p) : ∃ t ∈ ts, t.position = p ∧ fault.BlamedOn t := by
  cases h with
  | access x =>
    obtain ⟨t, ht, hkind, hlexeme, hp⟩ := hm
    exact ⟨t, ht, hp, hkind, hlexeme⟩
  | unary hfault =>
    obtain ⟨t, ht, hop, hp⟩ := hm
    exact ⟨t, ht, hp, hfault.blamedOn hop⟩
  | binary hfault =>
    obtain ⟨t, ht, level, hlevel, hop, hp⟩ := hm
    exact ⟨t, ht, hp, hfault.blamedOn hlevel hop⟩
  | arity name expected received | notCallable d =>
    obtain ⟨t, ht, hkind, hp⟩ := hm
    exact ⟨t, ht, hp, hkind⟩

/-- All nodes of the code have the property. -/
def Code.Each (P : Node → Mark → Prop) : Code → Prop
  | expr e => e.Each P
  | stmt s => s.Each P

section

variable {P : Node → Mark → Prop}

mutual

theorem Expr.Each.sites (p : Place) :
    ∀ e : Expr Node, e.Each P → ∀ site ∈ e.sites p, site.code.Each P
  | .binary _ l _ r, h | .logical _ l _ r, h =>
    List.forall_mem_cons.mpr ⟨h, List.forall_mem_append.mpr
      ⟨Expr.Each.sites p l h.2.1, Expr.Each.sites p r h.2.2⟩⟩
  | .grouping _ e, h | .unary _ _ e, h | .assign _ _ e, h =>
    List.forall_mem_cons.mpr ⟨h, Expr.Each.sites p e h.2⟩
  | .literal .., h | .reference .., h => List.forall_mem_singleton.mpr h
  | .call _ c args, h =>
    List.forall_mem_cons.mpr ⟨h, List.forall_mem_append.mpr
      ⟨Expr.Each.sites p c h.2.1, Expr.EachOf.sites p args h.2.2⟩⟩

theorem Expr.EachOf.sites (p : Place) :
    ∀ es : List (Expr Node), Expr.EachOf P es → ∀ site ∈ Expr.sitesAll p es, site.code.Each P
  | [], _ => nofun
  | e :: rest, h =>
    List.forall_mem_append.mpr ⟨Expr.Each.sites p e h.1, Expr.EachOf.sites p rest h.2⟩

end

private theorem Expr.Each?.sites (p : Place) {e : Option (Expr Node)} (h : Expr.Each? P e) :
    ∀ site ∈ Expr.sites? p e, site.code.Each P := by
  cases e with
  | none => nofun
  | some e => exact Expr.Each.sites p e (h e rfl)

mutual

theorem Stmt.Each.sites (p : Place) :
    ∀ s : Stmt Node, s.Each P → ∀ site ∈ s.sites p, site.code.Each P
  | .expression _ e, h | .print _ e, h => List.forall_mem_cons.mpr ⟨h, Expr.Each.sites p e h.2⟩
  | .varDecl .., h | .returnStmt .., h => List.forall_mem_cons.mpr ⟨h, Expr.Each?.sites _ h.2⟩
  | .block _ body, h | .funDecl _ _ _ body, h =>
    List.forall_mem_cons.mpr ⟨h, Program.Each.sites _ body h.2⟩
  | .ifElse _ c t none, h =>
    List.forall_mem_cons.mpr ⟨h, List.forall_mem_append.mpr
      ⟨Expr.Each.sites p c h.2.1, Stmt.Each.sites p t h.2.2⟩⟩
  | .ifElse _ c t (some e), h =>
    List.forall_mem_cons.mpr ⟨h, List.forall_mem_append.mpr
      ⟨List.forall_mem_append.mpr
        ⟨Expr.Each.sites p c h.2.1, Stmt.Each.sites p t h.2.2.1⟩, Stmt.Each.sites _ e h.2.2.2⟩⟩
  | .whileLoop _ c body, h =>
    List.forall_mem_cons.mpr ⟨h, List.forall_mem_append.mpr
      ⟨Expr.Each.sites p c h.2.1, Stmt.Each.sites p body h.2.2⟩⟩

theorem Program.Each.sites (p : Place) :
    ∀ q : Program Node, Program.Each P q → ∀ site ∈ Program.sites p q, site.code.Each P
  | [], _ => nofun
  | s :: rest, h =>
    List.forall_mem_append.mpr ⟨Stmt.Each.sites p s h.1, Program.Each.sites _ rest h.2⟩

end

end

/-- A token of the source text says what a node at the location says by itself. -/
def Mark.WrittenAt (source : Text) (l : Location) (m : Mark) : Prop :=
  ∃ p, l = .ofPosition p ∧ m.Written (scan source).tokens p

private theorem each_parseKeyed (k : Nat) (source : Text) :
    Program.Each (fun n => Mark.WrittenAt source n.location) (parseKeyed k source).1.program :=
  Program.Each.map (fun n _ h => ⟨n.location, rfl, h⟩) _
    (Parse.each_parseTokensWith k (scan source).tokens (scan source).stop)

namespace Course

variable {r : Course} {v : Visit}

/-- A call that the run comes to is one that the program makes, if no native function makes any. -/
theorem Visits.exists_call (hv : r.Visits v) (hhost : ∀ calls f args c vs l,
    r.ctx.host calls f args ≠ .call c vs l) {f : Value} {args : List Value} {l : Option Location}
    (htask : v.task = .call f args l) :
    ∃ u env n c es, r.Visits u ∧ u.task = .evaluate env (.call n c es) ∧ l = some n.location := by
  cases hv with
  | refl => cases htask
  | @tail u _ hu hcall =>
    obtain ⟨hasks⟩ := hcall
    dsimp only at htask
    rw [htask] at hasks
    have hat := (r.ctx.outlined_plan _ _).callsAt hasks
    revert hat
    fun_cases Task.CallsAt with
    | case1 env n c es => exact fun hl => ⟨_, env, n, c, es, hu, rfl, hl⟩
    | case2 f args => exact fun ⟨calls, c, vs, hreply⟩ => absurd hreply (hhost calls f args c vs l)
    | case3 => exact False.elim

/-- An error of a run stands at a node of the program that can have its fault, if no functions are
there from before and no native function makes calls. -/
theorem Visits.exists_mark_of_raises (hv : r.Visits v) (hhost : r.ctx.host.Faithful)
    (hglobals : ∀ i ∈ r.ctx.globals, i < r.start.store.frames.size) (hguests : ∀ c, ¬ r.Guest c)
    (hcalls : ∀ calls f args c vs l, r.ctx.host calls f args ≠ .call c vs l)
    {P : Node → Mark → Prop}
    (heach : Program.Each P r.program) {e : RuntimeError} (hraises : v.task.Raises e) :
    ∃ n m, P n m ∧ e.location = some n.location ∧ m.Faults e.fault := by
  have hsites {site : Site} (hsite : site ∈ r.sites .program) : site.code.Each P :=
    Program.Each.sites .top r.program heach site hsite
  have hevaluated {u : Visit} (hu : r.Visits u) {env : Environment} {e : Expr Node}
      (htask : u.task = .evaluate env e) : e.Each P := by
    have hcode : u.task.code? = some (env, .expr e) := by rw [htask]; rfl
    obtain ⟨site, hsite, hsame, -⟩ := hu.site hhost hglobals hguests hcode
    have hcodes := hsites hsite
    rw [hsame] at hcodes
    exact hcodes
  have hcalled {f : Value} {args : List Value} {l : Option Location}
      (htask : v.task = .call f args l) : ∃ n, P n .call ∧ l = some n.location := by
    obtain ⟨u, env, n, c, es, hu, hcall, hl⟩ := hv.exists_call hcalls htask
    exact ⟨n, (hevaluated hu hcall).1, hl⟩
  generalize htask : v.task = task at hraises
  cases hraises with
  | @access _ env n x haccess =>
    obtain ⟨w, -, -, hfits⟩ := hv.fits hhost hglobals
    obtain ⟨e, hx, home, p, hcode, henv, -⟩ := hfits.access (htask ▸ haccess)
    cases home with
    | guest c => exact absurd henv.1 (hguests c)
    | program =>
      have hsite : (Code.expr e).Each P := hsites (hcode List.mem_cons_self)
      refine ⟨n, .access x, ?_, rfl, .access x⟩
      cases e with
      | reference => cases hx; exact hsite
      | assign => cases hx; exact hsite.1
      | _ => cases hx
  | unary hfault => exact ⟨_, _, (hevaluated hv htask).1, rfl, .unary hfault⟩
  | binary hfault => exact ⟨_, _, (hevaluated hv htask).1, rfl, .binary hfault⟩
  | arity f args l name expected =>
    obtain ⟨n, hn, hl⟩ := hcalled htask
    exact ⟨n, .call, hn, hl, .arity name expected args.length⟩
  | notCallable f args l d =>
    obtain ⟨n, hn, hl⟩ := hcalled htask
    exact ⟨n, .call, hn, hl, .notCallable d⟩

/-- Every error of a run of a source text carries the place of the token that is to blame. -/
theorem error_at_token {k : Nat} {source : Text} {p : Program Node}
    (hparse : parseKeyed? k source = .ok p) (work : Nat) (table : ResolutionTable) (clock : Clock)
    {e : RuntimeError} {t : State}
    (hfailed : Context.interpret ⟨Command.start.1, table, .standard clock⟩ work p Command.start.2 =
      .failed e t) :
    ∃ token ∈ (scan source).tokens, e.location = some (.ofPosition token.position) ∧
      e.fault.BlamedOn token := by
  obtain ⟨-, rfl⟩ := Parsed.program?_eq_ok.mp hparse
  let r : Course := ⟨⟨Command.start.1, table, .standard clock⟩,
    (parseKeyed k source).1.program, work,
    Command.start.2⟩
  have hguests : ∀ c, ¬ r.Guest c := Course.not_guest rfl
  have hcalls (calls : Nat) (f : Native) (args : List Value) (c : Value) (vs : List Value)
      (l : Option Location) : r.ctx.host calls f args ≠ .call c vs l := by
    change Host.standard clock calls f args ≠ _
    unfold Host.standard
    split <;> nofun
  rw [Context.interpret_eq_run] at hfailed
  obtain ⟨v, hv, hraises, -⟩ :=
    Context.exists_raises_of_failed (Outcome.map_eq_failed.mp hfailed)
  obtain ⟨n, m, ⟨p, hn, hm⟩, hl, hfault⟩ := Visits.exists_mark_of_raises (r := r) hv
    (Host.faithful_standard clock) (fun i => Store.lt_size_of_mem_root) hguests hcalls
    (each_parseKeyed k source) hraises
  obtain ⟨token, htoken, rfl, hblamed⟩ := hfault.blamedOn hm
  exact ⟨token, htoken, by rw [hl, hn], hblamed⟩

/-- The step of a loop fails at the sign that is written in its header. -/
theorem error_at_token_step :
    let source : Text := "fun f(a) { for (var b; !b; b = -b) { a; } }\nf(f);"
    ∃ p, parseKeyed? firstKey source = .ok p ∧
      let ctx : Context :=
        ⟨Command.start.1, (resolve ["clock"] true p).table, .standard (.stopped Number.zero)⟩
      ∃ l t, ctx.interpret 20 p Command.start.2 = .failed ⟨.unsupportedOperator "-Nil", l⟩ t ∧
        ∃ token ∈ (scan source).tokens, l = some (.ofPosition token.position) ∧
          token.kind ∈ TokenKind.operators := by
  intro source
  let table (p : Program Node) := (resolve ["clock"] true p).table
  let ctx (p : Program Node) : Context :=
    ⟨Command.start.1, table p, .standard (.stopped Number.zero)⟩
  obtain ⟨p, hparse, hfault⟩ : ∃ p, parseKeyed? firstKey source = .ok p ∧
      ((ctx p).interpret 20 p Command.start.2).fault? = some (.unsupportedOperator "-Nil") :=
    exists_parseKeyed?_of_any (by decide +kernel)
  obtain ⟨l, t, ht⟩ := Outcome.fault?_eq_some.mp hfault
  obtain ⟨token, htoken, hl, hblamed⟩ :=
    error_at_token hparse 20 (table p) (.stopped Number.zero) ht
  exact ⟨p, hparse, l, t, ht, token, htoken, hl, hblamed⟩

end Course

end Lox
