import Lox.Number.Remainder
import Lox.Run.State

/-! What the operators do with values. -/

namespace Lox

namespace UnaryOp

def apply (op : UnaryOp) (v : Value) (location : Location) : Eval Value :=
  match op, v with
  | .not, v => pure (.bool (! v.truthy))
  | .negate, .number x => pure (.number (-x))
  | .negate, v => Eval.fail (.unsupportedOperator (op.sign ++ v.typeName)) (some location)

end UnaryOp

namespace BinaryOp

/-- Division and remainder by either zero are faults. -/
def onNumbers (op : BinaryOp) (x y : Float) : Except Fault Value :=
  match op with
  | add => .ok (.number (x + y))
  | subtract => .ok (.number (x - y))
  | multiply => .ok (.number (x * y))
  | divide => if Number.isZero y then .error .divisionByZero else .ok (.number (x / y))
  | remainder =>
    if Number.isZero y then .error .divisionByZero else .ok (.number (Number.remainder x y))
  | greater => .ok (.bool (decide (y < x)))
  | greaterEqual => .ok (.bool (decide (y ≤ x)))
  | less => .ok (.bool (decide (x < y)))
  | lessEqual => .ok (.bool (decide (x ≤ y)))
  | equal => .ok (.bool (x == y))
  | notEqual => .ok (.bool (x != y))

/-- Any two values can be compared for equality, and texts can be joined; all else is for
numbers. -/
def onValues (op : BinaryOp) (v w : Value) : Except Fault Value :=
  match op, v, w with
  | equal, v, w => .ok (.bool (v.equal w))
  | notEqual, v, w => .ok (.bool (! v.equal w))
  | add, .string s, .string t => .ok (.string (s ++ t))
  | op, .number x, .number y => op.onNumbers x y
  | op, v, w =>
    .error (.unsupportedOperator (v.typeName ++ " " ++ op.sign ++ " " ++ w.typeName))

def apply (op : BinaryOp) (v w : Value) (location : Location) : Eval Value :=
  match op.onValues v w with
  | .ok result => pure result
  | .error fault => Eval.fail fault (some location)

end BinaryOp

/-- Whether the left operand alone decides. -/
def LogicalOp.decides (op : LogicalOp) (left : Value) : Bool :=
  match op with
  | .or => left.truthy
  | .and => ! left.truthy

end Lox
