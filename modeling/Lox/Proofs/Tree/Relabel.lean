import Lox.Proofs.Tree.Load

/-! Trees that differ in nothing but their keys. A tree is made again of what is left without its
keys and of the keys; and two trees that are the same without keys are one tree with two keys at
every node. -/

namespace Lox

/-- The keys of a list, one after the other. -/
instance {π : Type} : Supply (List Nat) π (Keyed π) :=
  ⟨fun p ks => (⟨ks.headD 0, p⟩, ks.tail), Keyed.location, fun _ _ => rfl⟩

theorem Location.note_list (l : Option Location) (ks : List Nat) :
    note l ks = (⟨ks.headD 0, orUnknown l⟩, ks.tail) := rfl

/-- What a node says of where it comes from. -/
def Node.origin (n : Node) : Option Location := some n.location

section Relabel

open Supply (bind_apply pure_apply)

theorem Node.note_origin (n : Node) (rest : List Nat) :
    Location.note n.origin (n.key :: rest) = (n, rest) := rfl

mutual

/-- A tree is made again of its parts and its keys. -/
theorem Expr.load_keys (rest : List Nat) : ∀ e : Expr Node,
    Expr.load (e.map Node.origin) (e.notes.map Keyed.key ++ rest) = (e, rest)
  | .binary _ l _ r | .logical _ l _ r => by
    simp only [map, load, notes, List.map_append, List.append_assoc, List.map_cons, List.map_nil,
      List.cons_append, List.nil_append, bind_apply, pure_apply, l.load_keys, r.load_keys,
      Node.note_origin]
  | .grouping _ e | .unary _ _ e | .assign _ _ e => by
    simp only [map, load, notes, List.map_append, List.append_assoc, List.map_cons, List.map_nil,
      List.cons_append, List.nil_append, bind_apply, pure_apply, e.load_keys, Node.note_origin]
  | .literal .. | .reference .. => rfl
  | .call _ c args => by
    simp only [map, load, notes, List.map_append, List.append_assoc, List.map_cons, List.map_nil,
      List.cons_append, List.nil_append, bind_apply, pure_apply, c.load_keys,
      Expr.loadAll_keys _ args, Node.note_origin]

theorem Expr.loadAll_keys (rest : List Nat) : ∀ es : List (Expr Node),
    Expr.loadAll (Expr.mapAll Node.origin es) ((Expr.notesAll es).map Keyed.key ++ rest) =
      (es, rest)
  | [] => rfl
  | e :: es => by
    simp only [Expr.mapAll, Expr.loadAll, Expr.notesAll, List.map_append, List.append_assoc,
      bind_apply, pure_apply, e.load_keys, Expr.loadAll_keys _ es]

end

private theorem Expr.load?_keys (rest : List Nat) (e : Option (Expr Node)) :
    Expr.load? (e.map (Expr.map Node.origin)) ((Expr.notes? e).map Keyed.key ++ rest) =
      (e, rest) := by
  cases e with
  | none => rfl
  | some e =>
    change Expr.load? (some (e.map Node.origin)) (e.notes.map Keyed.key ++ rest) = _
    simp only [Expr.load?, bind_apply, pure_apply, e.load_keys]

mutual

theorem Stmt.load_keys (rest : List Nat) : ∀ s : Stmt Node,
    Stmt.load (s.map Node.origin) (s.notes.map Keyed.key ++ rest) = (s, rest)
  | .expression _ e | .print _ e => by
    simp only [Stmt.map, Stmt.load, Stmt.notes, List.map_append, List.append_assoc, List.map_cons,
      List.map_nil, List.cons_append, List.nil_append, bind_apply, pure_apply, e.load_keys,
      Node.note_origin]
  | .varDecl _ _ e | .returnStmt _ e => by
    simp only [Stmt.map, Stmt.load, Stmt.notes, List.map_append, List.append_assoc, List.map_cons,
      List.map_nil, List.cons_append, List.nil_append, bind_apply, pure_apply, Expr.load?_keys _ e,
      Node.note_origin]
  | .block _ body | .funDecl _ _ _ body => by
    simp only [Stmt.map, Stmt.load, Stmt.notes, List.map_append, List.append_assoc, List.map_cons,
      List.map_nil, List.cons_append, List.nil_append, bind_apply, pure_apply,
      Program.load_notes _ body, Node.note_origin]
  | .ifElse _ c t none => by
    simp only [Stmt.map, Stmt.load, Stmt.notes, List.map_append, List.append_assoc, List.map_cons,
      List.map_nil, List.cons_append, List.nil_append, bind_apply, pure_apply, c.load_keys,
      t.load_keys, Node.note_origin]
  | .ifElse _ c t (some e) => by
    simp only [Stmt.map, Stmt.load, Stmt.notes, List.map_append, List.append_assoc, List.map_cons,
      List.map_nil, List.cons_append, List.nil_append, bind_apply, pure_apply, c.load_keys,
      t.load_keys, e.load_keys, Node.note_origin]
  | .whileLoop _ c body => by
    simp only [Stmt.map, Stmt.load, Stmt.notes, List.map_append, List.append_assoc, List.map_cons,
      List.map_nil, List.cons_append, List.nil_append, bind_apply, pure_apply, c.load_keys,
      body.load_keys, Node.note_origin]

theorem Program.load_notes (rest : List Nat) : ∀ p : Program Node,
    Program.load (Program.map Node.origin p) ((Program.notes p).map Keyed.key ++ rest) = (p, rest)
  | [] => rfl
  | s :: p => by
    simp only [Program.map, Program.load, Program.notes, List.map_append, List.append_assoc,
      bind_apply, pure_apply, s.load_keys, Program.load_notes _ p]

end

theorem Program.load_keys (p : Program Node) :
    (Program.load (Program.map Node.origin p) (Program.keys p)).1 = p := by
  have hload := Program.load_notes [] p
  rw [List.append_nil] at hload
  exact congrArg Prod.fst hload

end Relabel

section Step

open Supply (bind_apply pure_apply)

variable {σ σ' ν ν' : Type} [Supply σ Location ν] [Supply σ' Location ν'] {note : ν → ν'}
  {left : σ → σ'}

/-- From what is left of both supplies, the notes that are drawn correspond. -/
def Supply.InStep (note : ν → ν') (left : σ → σ') : Prop :=
  ∀ (l : Location) (s : σ), Supply.draw l (left s) =
    (note (Supply.draw l s).1, left (Supply.draw l s).2)

theorem Location.note_step (hdraw : Supply.InStep note left) (l : Option Location)
    (s : σ) :
    Location.note l (left s) = (note (Location.note l s).1, left (Location.note l s).2) :=
  hdraw _ s

mutual

theorem Expr.load_step (hdraw : Supply.InStep note left) (s : σ) : ∀ e : Expr (Option Location),
    e.load (left s) = ((e.load s).1.map note, left (e.load s).2)
  | .binary _ l _ r | .logical _ l _ r => by
    simp only [load, map, bind_apply, pure_apply, l.load_step hdraw, r.load_step hdraw,
      Location.note_step hdraw]
  | .grouping _ e | .unary _ _ e | .assign _ _ e => by
    simp only [load, map, bind_apply, pure_apply, e.load_step hdraw, Location.note_step hdraw]
  | .literal .. | .reference .. => by
    simp only [load, map, bind_apply, pure_apply, Location.note_step hdraw]
  | .call _ c args => by
    simp only [load, map, bind_apply, pure_apply, c.load_step hdraw, Expr.loadAll_step hdraw _ args,
      Location.note_step hdraw]

theorem Expr.loadAll_step (hdraw : Supply.InStep note left) (s : σ) :
    ∀ es : List (Expr (Option Location)),
    Expr.loadAll es (left s) =
      (Expr.mapAll note (Expr.loadAll es s).1, left (Expr.loadAll es s).2)
  | [] => rfl
  | e :: es => by
    simp only [Expr.loadAll, Expr.mapAll, bind_apply, pure_apply, e.load_step hdraw,
      Expr.loadAll_step hdraw _ es]

end

private theorem Expr.load?_step (hdraw : Supply.InStep note left) (s : σ)
    (e : Option (Expr (Option Location))) :
    Expr.load? e (left s) =
      ((Expr.load? e s).1.map (Expr.map note), left (Expr.load? e s).2) := by
  cases e with
  | none => rfl
  | some e =>
    simp only [Expr.load?, bind_apply, pure_apply, e.load_step hdraw]
    rfl

mutual

theorem Stmt.load_step (hdraw : Supply.InStep note left) (s : σ) : ∀ t : Stmt (Option Location),
    t.load (left s) = ((t.load s).1.map note, left (t.load s).2)
  | .expression _ e | .print _ e => by
    simp only [Stmt.load, Stmt.map, bind_apply, pure_apply, e.load_step hdraw,
      Location.note_step hdraw]
  | .varDecl _ _ e | .returnStmt _ e => by
    simp only [Stmt.load, Stmt.map, bind_apply, pure_apply, Expr.load?_step hdraw _ e,
      Location.note_step hdraw]
  | .block _ body | .funDecl _ _ _ body => by
    simp only [Stmt.load, Stmt.map, bind_apply, pure_apply, Program.load_step hdraw _ body,
      Location.note_step hdraw]
  | .ifElse _ c t none => by
    simp only [Stmt.load, Stmt.map, bind_apply, pure_apply, c.load_step hdraw, t.load_step hdraw,
      Location.note_step hdraw]
  | .ifElse _ c t (some e) => by
    simp only [Stmt.load, Stmt.map, bind_apply, pure_apply, c.load_step hdraw, t.load_step hdraw,
      e.load_step hdraw, Location.note_step hdraw]
  | .whileLoop _ c body => by
    simp only [Stmt.load, Stmt.map, bind_apply, pure_apply, c.load_step hdraw, body.load_step hdraw,
      Location.note_step hdraw]

/-- Supplies that keep in step give the same tree, but for the notes. -/
theorem Program.load_step (hdraw : Supply.InStep note left) (s : σ) :
    ∀ p : Program (Option Location),
    Program.load p (left s) = (Program.map note (Program.load p s).1, left (Program.load p s).2)
  | [] => rfl
  | t :: p => by
    simp only [Program.load, Program.map, bind_apply, pure_apply, t.load_step hdraw,
      Program.load_step hdraw _ p]

end

end Step

/-- A node that has two keys. -/
structure Twin where
  key : Nat
  key' : Nat
  location : Location

namespace Twin

def left (t : Twin) : Node := ⟨t.key, t.location⟩

def right (t : Twin) : Node := ⟨t.key', t.location⟩

instance : Supply (List (Nat × Nat)) Location Twin :=
  ⟨fun l ks => (⟨(ks.headD (0, 0)).1, (ks.headD (0, 0)).2, l⟩, ks.tail), location, fun _ _ => rfl⟩

private theorem inStep_left :
    Supply.InStep left (List.map Prod.fst : List (Nat × Nat) → List Nat) := fun _ ks => by
  cases ks <;> rfl

private theorem inStep_right :
    Supply.InStep right (List.map Prod.snd : List (Nat × Nat) → List Nat) := fun _ ks => by
  cases ks <;> rfl

end Twin

/-- Two trees that are the same without their keys. -/
theorem Program.exists_twin {p p' : Program Node}
    (h : Program.map Keyed.location p = Program.map Keyed.location p') :
    ∃ t : Program Twin, Program.map Twin.left t = p ∧ Program.map Twin.right t = p' := by
  have horigin : Program.map Node.origin p = Program.map Node.origin p' := by
    have hsome := congrArg (Program.map some) h
    rwa [Program.map_map, Program.map_map] at hsome
  have hlength : (Program.keys p).length = (Program.keys p').length := by
    have hnotes := congrArg List.length (congrArg Program.notes h)
    rw [Program.notes_map, Program.notes_map, List.length_map, List.length_map] at hnotes
    rw [Program.keys, Program.keys, List.length_map, List.length_map, hnotes]
  let keys := (Program.keys p).zip (Program.keys p')
  have hleft := Program.load_step Twin.inStep_left keys (Program.map Node.origin p)
  have hright := Program.load_step Twin.inStep_right keys (Program.map Node.origin p)
  rw [List.map_fst_zip (Nat.le_of_eq hlength)] at hleft
  rw [List.map_snd_zip (Nat.le_of_eq hlength.symm)] at hright
  refine ⟨(Program.load (Program.map Node.origin p) keys).1, ?_, ?_⟩
  · exact (congrArg Prod.fst hleft).symm.trans (Program.load_keys p)
  · rw [horigin] at hright ⊢
    exact (congrArg Prod.fst hright).symm.trans (Program.load_keys p')

/-- Where no two nodes have the same first key, it tells the second one. -/
theorem Twin.exists_right_eq {twins : List Twin} (hkeys : (twins.map Twin.key).Nodup) :
    ∃ f : Node → Node, (∀ n, (f n).location = n.location) ∧ ∀ t ∈ twins, f t.left = t.right := by
  induction twins with
  | nil => exact ⟨id, fun _ => rfl, nofun⟩
  | cons t rest ih =>
    obtain ⟨hnew, hrest⟩ := List.nodup_cons.mp hkeys
    obtain ⟨f, hf, hfrest⟩ := ih hrest
    refine ⟨fun n => if n = t.left then t.right else f n, fun n => ?_,
      List.forall_mem_cons.mpr ⟨if_pos rfl, fun other hother => ?_⟩⟩
    · dsimp only
      split
      · rename_i heq
        rw [heq]
        rfl
      · exact hf n
    · have hne : other.left ≠ t.left := fun heq =>
        hnew (List.mem_map.mpr ⟨other, hother, congrArg Keyed.key heq⟩)
      exact (if_neg hne).trans (hfrest other hother)

theorem Program.exists_right_eq {t : Program Twin}
    (hkeys : (Program.keys (Program.map Twin.left t)).Nodup) :
    ∃ f : Node → Node, (∀ n, (f n).location = n.location) ∧
      Program.map Twin.right t = Program.map f (Program.map Twin.left t) := by
  have hnodup : ((Program.notes t).map Twin.key).Nodup := by
    rw [Program.keys, Program.notes_map, List.map_map] at hkeys
    exact hkeys
  obtain ⟨f, hf, hright⟩ := Twin.exists_right_eq hnodup
  refine ⟨f, hf, ?_⟩
  rw [Program.map_map]
  exact Program.map_congr t fun twin htwin => (hright twin htwin).symm

end Lox
