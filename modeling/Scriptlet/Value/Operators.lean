import Scriptlet.Error
import Scriptlet.Value.Basic

/-!
# Operators on values

The meaning of an operator token on operands that are already evaluated. Any token may stand in
operator position; one that is no operator is a fault.
-/

namespace Scriptlet

namespace Value

/-- Applies an operation to two numbers. -/
def withNumbers (operator : String) (f : Float → Float → Value) :
    Value → Value → Except RuntimeFault Value
  | number x, number y => .ok (f x y)
  | _, _ => .error (.operandsNotNumbers operator)

/-- The sum of two numbers, or the concatenation of two texts of which at least one is a string and
the other a string or a number. -/
def add : Value → Value → Except RuntimeFault Value
  | number x, number y => .ok (number (x + y))
  | string s, string t => .ok (string (s ++ t))
  | string s, number y => .ok (string (s ++ Decimal.numberText y))
  | number x, string t => .ok (string (Decimal.numberText x ++ t))
  | _, _ => .error .operandsNotAddable

/-- The value of a unary operator on its operand. -/
def applyUnary (operator : Token) (v : Value) : Except RuntimeFault Value :=
  match operator.kind with
  | .mark .minus =>
    match v with
    | number x => .ok (number (-x))
    | _ => .error (.operandNotNumber operator.lexeme)
  | .mark .bang => .ok (boolean (!v.isTruthy))
  | _ => .error (.invalidUnary operator.lexeme)

/-- The value of a binary operator on its operands. -/
def applyBinary (operator : Token) (a b : Value) : Except RuntimeFault Value :=
  match operator.kind with
  | .mark .plus => add a b
  | .mark .minus => withNumbers operator.lexeme (fun x y => number (x - y)) a b
  | .mark .star => withNumbers operator.lexeme (fun x y => number (x * y)) a b
  | .mark .slash => withNumbers operator.lexeme (fun x y => number (x / y)) a b
  | .mark .greater => withNumbers operator.lexeme (fun x y => boolean (decide (x > y))) a b
  | .mark .greaterEqual => withNumbers operator.lexeme (fun x y => boolean (decide (x ≥ y))) a b
  | .mark .less => withNumbers operator.lexeme (fun x y => boolean (decide (x < y))) a b
  | .mark .lessEqual => withNumbers operator.lexeme (fun x y => boolean (decide (x ≤ y))) a b
  | .mark .equalEqual => .ok (boolean (a.same b))
  | .mark .bangEqual => .ok (boolean (!a.same b))
  | _ => .error (.invalidBinary operator.lexeme)

/-- Whether the left operand of a logical operator settles its value: a true one for `or`, a false
one for every other token. -/
def shortCircuits (operator : Token) (left : Value) : Bool :=
  if operator.is .kwOr then left.isTruthy else !left.isTruthy

end Value

end Scriptlet
