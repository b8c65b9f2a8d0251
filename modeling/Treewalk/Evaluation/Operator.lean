import Treewalk.Fault
import Treewalk.Value

/-!
# Operators on values

The kind of the operator token decides what is done. A kind that is no operator of the language is
refused, and for binary operators only after the operands have turned out to be numbers.
-/

namespace Treewalk.Evaluation

/-- An operator before its operand. -/
def unary (operator : Token) (right : Value) : Except Fault Value :=
  match operator.kind, right with
  | .minus, .number x => .ok (.number (-x))
  | .minus, _ => .error (.typeMismatch operator .operandNotNumber)
  | .not, _ => .ok (.boolean (!right.isTruthy))
  | _, _ => .error (.typeMismatch operator .unknownUnary)

/-- An operator between two numbers, other than `+`, `==` and `!=`. -/
def arithmetic (operator : Token) (x y : Float) : Except Fault Value :=
  match operator.kind with
  | .minus => .ok (.number (x - y))
  | .slash => .ok (.number (x / y))
  | .star => .ok (.number (x * y))
  | .greater => .ok (.boolean (x > y))
  | .greaterEqual => .ok (.boolean (x ≥ y))
  | .less => .ok (.boolean (x < y))
  | .lessEqual => .ok (.boolean (x ≤ y))
  | _ => .error (.typeMismatch operator .unknownBinary)

/-- An operator between its operands. -/
def binary (operator : Token) (left right : Value) : Except Fault Value :=
  match operator.kind with
  | .equal => .ok (.boolean (left.equals right))
  | .notEqual => .ok (.boolean (!left.equals right))
  | .plus =>
    match left, right with
    | .number x, .number y => .ok (.number (x + y))
    | .string s, .string t => .ok (.string (s ++ t))
    | _, _ => .error (.typeMismatch operator .operandsNotAlike)
  | _ =>
    match left, right with
    | .number x, .number y => arithmetic operator x y
    | _, _ => .error (.typeMismatch operator .operandsNotNumbers)

/-- Whether `and` or `or` is decided by its left operand. -/
def decides (operator : Token) (left : Value) : Bool :=
  if operator.kind = .kwOr then left.isTruthy else !left.isTruthy

end Treewalk.Evaluation
