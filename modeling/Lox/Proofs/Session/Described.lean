import Lox.Proofs.Run.Completed
import Lox.Proofs.Session.Memory

/-! What a session shows of its globals. Which names are there depends on what the user has declared
since the last reset; which of them are shown depends on their values alone. The two agree unless a
variable of the user holds a native function, or that of a native function no longer does. -/

namespace Lox

private theorem Store.get?_of_mem_names {s : Store} {env : Environment} {x : Name}
    (h : x ∈ s.names env) : ∃ v, s.get? env x = some v := by
  cases env with
  | nil => cases h
  | cons i env =>
    have hbinds : s.binds i x = true := Store.binds_iff.mpr h
    rw [get?, holder?, if_pos hbinds]
    exact Option.isSome_iff_exists.mp hbinds

namespace Session

/-- The names that an input declares at the top level, as far as it runs. -/
def declares (s : Session) (host : Host) (work : Nat) (input : Text) : List Name :=
  let parsed := (parseKeyed s.nextKey input).1
  match s.vet parsed.errors parsed.program with
  | .error _ => []
  | .ok table =>
    let ctx : Context := ⟨s.globals, s.table.merge table, host⟩
    Program.declared (ctx.completed work s.globals s.state parsed.program)

def declaredAfter (work : Nat) (s : Session) (user : List Name) : Step → List Name
  | .run clock input => user ++ s.declares (.standard clock) work input
  | .reset => []
  | .elsewhere _ => user

/-- The names that the user has declared in a history since the last reset, in their order. -/
def declaredIn (work : Nat) (s : Session) (user : List Name) : List Step → List Name
  | [] => user
  | first :: rest =>
    match s.step work first with
    | none => user
    | some t => declaredIn work t (s.declaredAfter work user first) rest

def holdsNative (s : Session) (x : Name) : Bool :=
  match s.state.store.get? s.globals x with
  | some (.native _) => true
  | _ => false

def shownNames (s : Session) : List Name :=
  (s.state.store.names s.globals).filter fun x => ! s.holdsNative x

def line (s : Session) (x : Name) : Text :=
  "  " ++ x ++ " = " ++ preview ((s.state.store.get? s.globals x).getD .nil).text

/-- Just the globals are shown that hold no native function. -/
theorem describe_eq_map_line (s : Session) : s.describe = s.shownNames.map s.line := by
  unfold describe shownNames
  rw [← List.filterMap_eq_map, List.filterMap_filter]
  refine List.filterMap_congr fun x hx => ?_
  obtain ⟨v, hv⟩ := Store.get?_of_mem_names hx
  cases v <;> simp [holdsNative, line, hv]

def nativeNames : List Name := Native.standard.map Native.name

/-- The globals are those of a new session and those that the user has declared. -/
structure Keeps (s : Session) (user : List Name) : Prop where
  frame : ∃ g, s.globals.head? = some g ∧ g < s.state.store.frames.size
  names : s.state.store.names s.globals = nativeNames ++ newNames nativeNames user

theorem keeps_fresh (resolves : Bool) (k : Nat) : (fresh resolves k).Keeps [] :=
  ⟨⟨0, rfl, Store.lt_size_of_mem_root List.mem_cons_self⟩, rfl⟩

/-- One expression declares nothing. -/
theorem declared_completed_expression (ctx : Context) (work : Nat) (env : Environment) (s : State)
    (n : Node) (e : Expr Node) :
    Program.declared (ctx.completed work env s [.expression n e]) = [] := by
  rw [Context.completed]
  split <;> rfl

private theorem names_evaluate {ctx : Context} {work : Nat} {p : Program Node} {s t : State}
    {g : Nat} (hscoped : Program.Scoped p) (hg : ctx.globals.head? = some g)
    (hsize : g < s.store.frames.size) (ht : (evaluate ctx work p s).state? = some t) :
    g < t.store.frames.size ∧ t.store.names ctx.globals = s.store.names ctx.globals ++
      newNames (s.store.names ctx.globals)
        (Program.declared (ctx.completed work ctx.globals s p)) := by
  by_cases hlone : ∃ n e, p = [.expression n e]
  · obtain ⟨n, e, rfl⟩ := hlone
    rw [evaluate_expression, Outcome.state?_map] at ht
    have hgrows := Context.run_grows ht
    rw [declared_completed_expression, Store.names_of_head? hg, Store.names_of_head? hg,
      hgrows.names_eq hsize fun _ => id]
    exact ⟨Nat.lt_of_lt_of_le hsize hgrows.size, (List.append_nil _).symm⟩
  · rw [evaluate_statements _ _ (fun n e heq => hlone ⟨n, e, heq⟩), Outcome.state?_map] at ht
    exact ⟨Nat.lt_of_lt_of_le hsize (Context.run_grows ht).size,
      Context.names_completed rfl ht hscoped hg hsize⟩

section

variable {s t : Session} {user : List Name} {work : Nat}

private theorem program?_of_vet {parsed : Parsed Node} {table : ResolutionTable}
    (h : s.vet parsed.errors parsed.program = .ok table) :
    parsed.program? = .ok parsed.program := by
  unfold vet at h
  cases herrors : parsed.errors.isEmpty with
  | true => exact if_pos herrors
  | false =>
    rw [herrors] at h
    cases h

/-- The session behind a program is in the state in which the program has ended. -/
theorem session_of_runProgram {host : Host} {p : Program Node} {table : ResolutionTable}
    {nextKey : Nat} {a : Answer} (h : s.runProgram host work p table nextKey = some a) :
    ∃ u, (evaluate ⟨s.globals, table, host⟩ work p s.state).state? = some u ∧
      a.session.globals = s.globals ∧ a.session.state.store = u.store := by
  unfold runProgram at h
  dsimp only at h
  split at h
  · rename_i hdone
    cases h
    exact ⟨_, congrArg Outcome.state? hdone, rfl, rfl⟩
  · rename_i hfailed
    cases h
    exact ⟨_, congrArg Outcome.state? hfailed, rfl, rfl⟩
  · cases h

private theorem Keeps.run (h : s.Keeps user) {host : Host} {input : Text} {a : Answer}
    (ha : s.run host work input = some a) :
    a.session.Keeps (user ++ s.declares host work input) := by
  unfold Session.run at ha
  unfold declares
  dsimp only at ha ⊢
  let parsed := (parseKeyed s.nextKey input).1
  cases hvet : s.vet parsed.errors parsed.program with
  | error complaints =>
    rw [hvet] at ha
    cases ha
    dsimp only
    rw [List.append_nil]
    exact ⟨h.frame, h.names⟩
  | ok table =>
    rw [hvet] at ha
    obtain ⟨u, hu, hglobals, hstore⟩ := session_of_runProgram ha
    obtain ⟨g, hg, hsize⟩ := h.frame
    have hscoped := scoped_of_parseKeyed? (program?_of_vet hvet)
    obtain ⟨hsize', hnames⟩ := names_evaluate hscoped hg hsize hu
    refine ⟨⟨g, by rw [hglobals, hg], by rw [hstore]; exact hsize'⟩, ?_⟩
    rw [hglobals, hstore, newNames_append, ← List.append_assoc, ← h.names]
    exact hnames

private theorem Keeps.step (h : s.Keeps user) {last : Step} (hlast : s.step work last = some t) :
    t.Keeps (s.declaredAfter work user last) := by
  cases last with
  | reset =>
    cases hlast
    exact keeps_fresh s.resolves s.nextKey
  | elsewhere keys =>
    cases hlast
    exact ⟨h.frame, h.names⟩
  | run clock input =>
    obtain ⟨a, ha, rfl⟩ := Option.map_eq_some_iff.mp hlast
    exact h.run ha

private theorem Keeps.steps (h : s.Keeps user) {history : List Step}
    (hsteps : s.steps work history = some t) : t.Keeps (s.declaredIn work user history) := by
  induction history generalizing s user with
  | nil =>
    cases hsteps
    exact h
  | cons first rest ih =>
    obtain ⟨middle, hfirst, hrest⟩ := steps_cons.mp hsteps
    rw [declaredIn, hfirst]
    exact ih (h.step hfirst) hrest

/-- No variable of the user holds a native function, and the variables of the native functions that
the user has not declared still hold one. -/
structure Plain (s : Session) (user : List Name) : Prop where
  declared : ∀ x ∈ user, s.holdsNative x = false
  native : ∀ x ∈ nativeNames, x ∉ user → s.holdsNative x = true

private theorem plain_iff {s : Session} {user : List Name} : s.Plain user ↔
    (user.all fun x => ! s.holdsNative x) &&
      nativeNames.all fun x => user.contains x || s.holdsNative x := by
  have hnative (x : Name) : (x ∉ user → s.holdsNative x = true) ↔
      (user.contains x || s.holdsNative x) = true := by
    rw [Bool.or_eq_true, List.contains_iff_mem, Decidable.imp_iff_not_or, Decidable.not_not]
  simp only [Bool.and_eq_true, List.all_eq_true, Bool.not_eq_true', ← hnative]
  exact ⟨fun h => ⟨h.declared, h.native⟩, fun h => ⟨h.1, h.2⟩⟩

instance (s : Session) (user : List Name) : Decidable (s.Plain user) :=
  decidable_of_iff ((user.all fun x => ! s.holdsNative x) &&
    nativeNames.all fun x => user.contains x || s.holdsNative x) plain_iff.symm

private theorem Keeps.mem_names (h : s.Keeps user) {x : Name} :
    x ∈ s.state.store.names s.globals ↔ x ∈ nativeNames ∨ x ∈ user := by
  rw [h.names, List.mem_append, mem_newNames]
  tauto

private theorem Keeps.nodup_shownNames (h : s.Keeps user) : s.shownNames.Nodup := by
  refine List.Nodup.filter _ ?_
  rw [h.names, List.nodup_append]
  refine ⟨by decide, nodup_newNames _ _, fun x hx y hy heq => ?_⟩
  exact (mem_newNames.mp hy).2 (heq ▸ hx)

/-- Just the names of the user are shown if the values tell who has declared them. -/
theorem Keeps.mem_shownNames_iff (h : s.Keeps user) :
    (∀ x, x ∈ s.shownNames ↔ x ∈ user) ↔ s.Plain user := by
  have hshown (x : Name) : x ∈ s.shownNames ↔
      (x ∈ nativeNames ∨ x ∈ user) ∧ s.holdsNative x = false := by
    rw [shownNames, List.mem_filter, h.mem_names, Bool.not_eq_true']
  constructor
  · intro hsame
    refine ⟨fun x hx => ((hshown x).mp ((hsame x).mpr hx)).2, fun x hx huser => ?_⟩
    rw [← hsame, hshown] at huser
    simpa [hx] using huser
  · intro hplain x
    rw [hshown]
    constructor
    · rintro ⟨hx | hx, hvalue⟩
      · by_contra huser
        rw [hplain.native x hx huser] at hvalue
        cases hvalue
      · exact hx
    · exact fun hx => ⟨.inr hx, hplain.declared x hx⟩

end

/-- What a session shows after any inputs and resets: the globals that hold no native function, each
once and in the order of the globals. They are the names that the user has declared since the last
reset just if no variable of the user holds a native function and the variables of the native
functions that the user has not declared still hold one. -/
theorem describe_declared (resolves : Bool) (k work : Nat) (history : List Step) {s : Session}
    (h : (fresh resolves k).steps work history = some s) :
    let user := (fresh resolves k).declaredIn work [] history
    s.describe = s.shownNames.map s.line ∧
      s.state.store.names s.globals = nativeNames ++ newNames nativeNames user ∧
      s.shownNames.Nodup ∧ ((∀ x, x ∈ s.shownNames ↔ x ∈ user) ↔ s.Plain user) := by
  intro user
  have hkeeps : s.Keeps user := (keeps_fresh resolves k).steps h
  exact ⟨s.describe_eq_map_line, hkeeps.names, hkeeps.nodup_shownNames, hkeeps.mem_shownNames_iff⟩

/-- The user declares the name of a native function, and the name of a function again. -/
theorem describe_declared_anew :
    let at0 : Clock := .stopped 0
    let history : List Step := [.run at0 "var a = 1;", .reset, .elsewhere 2,
      .run at0 "fun f(n) \x7b return n; \x7d var b = -f; var c;", .run at0 "var d = ;",
      .run at0 "var clock = f(2); var f = clock;"]
    let user : List Name := ["f", "clock", "f"]
    ∃ s, (fresh true 0).steps 20 history = some s ∧
      (fresh true 0).declaredIn 20 [] history = user ∧ s.Plain user ∧
      ∀ x, x ∈ s.shownNames ↔ x ∈ user := by
  intro at0 history user
  have hplain : ((fresh true 0).steps 20 history).any (fun s => s.Plain user) = true := by
    decide +kernel
  obtain ⟨s, hs, hplain⟩ := (Option.any_eq_true _ _).mp hplain
  have huser : (fresh true 0).declaredIn 20 [] history = user := by decide +kernel
  obtain ⟨-, -, -, hshown⟩ := describe_declared true 0 20 history hs
  rw [huser] at hshown
  exact ⟨s, hs, huser, of_decide_eq_true hplain, hshown.mpr (of_decide_eq_true hplain)⟩

/-- A variable that the user has declared is not shown if it holds a native function, and one that
the user has not declared is shown if it no longer does. -/
theorem describe_unlike_declared :
    (∃ s, (fresh true 0).steps 20 [.run (.stopped 0) "var c = clock;"] = some s ∧
      (fresh true 0).declaredIn 20 [] [.run (.stopped 0) "var c = clock;"] = ["c"] ∧
      s.describe = []) ∧
    ∃ s, (fresh true 0).steps 20 [.run (.stopped 0) "clock = 1;"] = some s ∧
      (fresh true 0).declaredIn 20 [] [.run (.stopped 0) "clock = 1;"] = [] ∧
      s.describe = ["  clock = 1"] := by
  have hcopied : ((fresh true 0).steps 20 [.run (.stopped 0) "var c = clock;"]).any
      (fun s => s.describe = []) = true := by
    decide +kernel
  have hassigned : ((fresh true 0).steps 20 [.run (.stopped 0) "clock = 1;"]).any
      (fun s => s.describe = ([("  clock = 1" : Text)] : List Text)) = true := by
    decide +kernel
  obtain ⟨s, hs, hnothing⟩ := (Option.any_eq_true _ _).mp hcopied
  obtain ⟨t, ht, hshown⟩ := (Option.any_eq_true _ _).mp hassigned
  exact ⟨⟨s, hs, by decide +kernel, of_decide_eq_true hnothing⟩,
    t, ht, by decide +kernel, of_decide_eq_true hshown⟩

end Session

end Lox
