import Lox.Tree.Basic

/-! The loop with an initializer and an increment, made of blocks and the plain loop. -/

namespace Lox

variable {α : Type}

/-- The body of a loop with an increment runs the increment last. -/
def Stmt.followedBy (body : Stmt α) : Option (Expr α) → Stmt α
  | none => body
  | some increment => .block body.note [body, .expression increment.note increment]

/-- A loop whose initializer, if it has one, runs once in a scope around the whole loop. -/
def Stmt.forLoop (note : α) (initializer : Option (Stmt α)) (condition : Expr α)
    (increment : Option (Expr α)) (body : Stmt α) : Stmt α :=
  let loop := Stmt.whileLoop note condition (body.followedBy increment)
  match initializer with
  | none => loop
  | some first => .block note [first, loop]

end Lox
