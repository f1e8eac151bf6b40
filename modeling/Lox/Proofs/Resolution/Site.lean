import Lox.Proofs.Resolution.Findings
import Lox.Proofs.Tree.Drawn

/-! The sites of a program: every expression and statement of it, with the place where the walk of
the resolver finds it. -/

namespace Lox

/-- What the walk knows where it stands. The lists go from the innermost block or function body
outwards. -/
structure Place where
  inFunction : Bool
  /-- The blocks and function declarations around the place. -/
  owners : List (Stmt Node)
  scopes : List Scope
  /-- The names that a run has defined when it comes to the place. -/
  settled : List (List Name)

namespace Place

def top : Place := ⟨false, [], [], []⟩

/-- Adds the name of a declaration to the innermost list. -/
def settle : Option Name → List (List Name) → List (List Name)
  | some x, names :: outer => (x :: names) :: outer
  | _, settled => settled

/-- The place behind a statement. -/
def after (p : Place) (s : Stmt Node) : Place :=
  { p with
    scopes := (s.findings p.inFunction p.scopes).2
    settled := settle s.declared? p.settled }

/-- The place of a second branch; a run does not come to it through the first one. -/
def besides (p : Place) (s : Stmt Node) : Place :=
  { p with scopes := (s.findings p.inFunction p.scopes).2 }

/-- The place of the initializer of a variable. -/
def initializer (p : Place) (n : Node) (x : Name) : Place :=
  { p with scopes := (Scope.declareInner x n.location p.scopes).2 }

def block (p : Place) (n : Node) (body : Program Node) : Place :=
  ⟨p.inFunction, .block n body :: p.owners, Scope.empty.withFunctions body :: p.scopes,
    [] :: p.settled⟩

def function (p : Place) (n : Node) (x : Name) (params : List Name) (body : Program Node) : Place :=
  let declaration := Stmt.funDecl n x params body
  ⟨true, declaration :: p.owners,
    (Scope.empty.withParams x n.location params).2.withFunctions body ::
      (p.after declaration).scopes,
    params :: (p.after declaration).settled⟩

end Place

inductive Code where
  | expr (e : Expr Node)
  | stmt (s : Stmt Node)

def Code.node : Code → Node
  | expr e => e.note
  | stmt s => s.note

/-- The variable that the code itself reads or writes. -/
def Code.access? : Code → Option (Node × Name)
  | expr (.reference n x) => some (n, x)
  | expr (.assign n x _) => some (n, x)
  | _ => none

structure Site where
  code : Code
  place : Place

namespace Site

def key (site : Site) : Nat := site.code.node.key

/-- What the resolver finds at an access to a variable. -/
def access? (site : Site) : Option Finding :=
  site.code.access?.map fun (n, x) => .access n x (Scope.depth? x site.place.scopes)

end Site

mutual

/-- The sites of an expression, each before those of its parts. -/
def Expr.sites (p : Place) : Expr Node → List Site
  | .binary n l op r => ⟨.expr (.binary n l op r), p⟩ :: (l.sites p ++ r.sites p)
  | .grouping n e => ⟨.expr (.grouping n e), p⟩ :: e.sites p
  | .literal n v => [⟨.expr (.literal n v), p⟩]
  | .unary n op e => ⟨.expr (.unary n op e), p⟩ :: e.sites p
  | .reference n x => [⟨.expr (.reference n x), p⟩]
  | .assign n x e => ⟨.expr (.assign n x e), p⟩ :: e.sites p
  | .logical n l op r => ⟨.expr (.logical n l op r), p⟩ :: (l.sites p ++ r.sites p)
  | .call n c args => ⟨.expr (.call n c args), p⟩ :: (c.sites p ++ Expr.sitesAll p args)

def Expr.sitesAll (p : Place) : List (Expr Node) → List Site
  | [] => []
  | e :: rest => e.sites p ++ Expr.sitesAll p rest

end

def Expr.sites? (p : Place) (e : Option (Expr Node)) : List Site := (e.map (Expr.sites p)).getD []

mutual

/-- The sites of a statement, each before those of its parts. -/
def Stmt.sites (p : Place) : Stmt Node → List Site
  | .expression n e => ⟨.stmt (.expression n e), p⟩ :: e.sites p
  | .print n e => ⟨.stmt (.print n e), p⟩ :: e.sites p
  | .varDecl n x e => ⟨.stmt (.varDecl n x e), p⟩ :: Expr.sites? (p.initializer n x) e
  | .block n body => ⟨.stmt (.block n body), p⟩ :: Program.sites (p.block n body) body
  | .ifElse n c t none => ⟨.stmt (.ifElse n c t none), p⟩ :: (c.sites p ++ t.sites p)
  | .ifElse n c t (some e) =>
    ⟨.stmt (.ifElse n c t (some e)), p⟩ :: (c.sites p ++ t.sites p ++ e.sites (p.besides t))
  | .whileLoop n c body => ⟨.stmt (.whileLoop n c body), p⟩ :: (c.sites p ++ body.sites p)
  | .funDecl n x params body =>
    ⟨.stmt (.funDecl n x params body), p⟩ :: Program.sites (p.function n x params body) body
  | .returnStmt n e => ⟨.stmt (.returnStmt n e), p⟩ :: Expr.sites? p e

def Program.sites (p : Place) : Program Node → List Site
  | [] => []
  | s :: rest => s.sites p ++ Program.sites (p.after s) rest

end

section Keys

private theorem perm_outermost {key : Nat} {before after : List Nat} (h : before.Perm after) :
    (key :: before).Perm (after ++ [key]) :=
  (h.cons key).trans (List.perm_append_singleton key after).symm

mutual

theorem Expr.sites_perm (p : Place) :
    ∀ e : Expr Node, ((e.sites p).map Site.key).Perm (e.notes.map Keyed.key)
  | .binary _ l _ r | .logical _ l _ r => by
    simp only [sites, notes, List.map_cons, List.map_append]
    exact perm_outermost ((l.sites_perm p).append (r.sites_perm p))
  | .grouping _ e | .unary _ _ e | .assign _ _ e => by
    simp only [sites, notes, List.map_cons, List.map_append]
    exact perm_outermost (e.sites_perm p)
  | .literal .. | .reference .. => .refl _
  | .call _ c args => by
    simp only [sites, notes, List.map_cons, List.map_append]
    exact perm_outermost ((c.sites_perm p).append (Expr.sitesAll_perm p args))

theorem Expr.sitesAll_perm (p : Place) : ∀ es : List (Expr Node),
    ((Expr.sitesAll p es).map Site.key).Perm ((Expr.notesAll es).map Keyed.key)
  | [] => .refl _
  | e :: rest => by
    simp only [Expr.sitesAll, Expr.notesAll, List.map_append]
    exact (e.sites_perm p).append (Expr.sitesAll_perm p rest)

end

private theorem Expr.sites?_perm (p : Place) : ∀ e : Option (Expr Node),
    ((Expr.sites? p e).map Site.key).Perm ((Expr.notes? e).map Keyed.key)
  | none => .refl _
  | some e => e.sites_perm p

mutual

theorem Stmt.sites_perm (p : Place) :
    ∀ s : Stmt Node, ((s.sites p).map Site.key).Perm (s.notes.map Keyed.key)
  | .expression _ e | .print _ e => by
    simp only [Stmt.sites, Stmt.notes, List.map_cons, List.map_append]
    exact perm_outermost (e.sites_perm p)
  | .varDecl _ _ e | .returnStmt _ e => by
    simp only [Stmt.sites, Stmt.notes, List.map_cons, List.map_append]
    exact perm_outermost (Expr.sites?_perm _ e)
  | .block _ body | .funDecl _ _ _ body => by
    simp only [Stmt.sites, Stmt.notes, List.map_cons, List.map_append]
    exact perm_outermost (Program.sites_perm _ body)
  | .ifElse _ c t none => by
    simp only [Stmt.sites, Stmt.notes, List.map_cons, List.map_append]
    exact perm_outermost ((c.sites_perm p).append (t.sites_perm p))
  | .ifElse _ c t (some e) => by
    simp only [Stmt.sites, Stmt.notes, List.map_cons, List.map_append]
    exact perm_outermost (((c.sites_perm p).append (t.sites_perm p)).append (e.sites_perm _))
  | .whileLoop _ c body => by
    simp only [Stmt.sites, Stmt.notes, List.map_cons, List.map_append]
    exact perm_outermost ((c.sites_perm p).append (body.sites_perm p))

/-- A program has one site for each of its nodes. -/
theorem Program.sites_perm (p : Place) : ∀ q : Program Node,
    ((Program.sites p q).map Site.key).Perm (Program.keys q)
  | [] => .refl _
  | s :: rest => by
    simp only [Program.sites, Program.keys, Program.notes, List.map_append]
    exact (s.sites_perm p).append (Program.sites_perm _ rest)

end

theorem Program.nodup_sites (p : Place) {q : Program Node} (h : (Program.keys q).Nodup) :
    ((Program.sites p q).map Site.key).Nodup :=
  (Program.sites_perm p q).nodup_iff.mpr h

end Keys

end Lox
