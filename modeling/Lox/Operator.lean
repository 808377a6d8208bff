import Lox.Failure
import Lox.Value

/-!
Operators on values.
-/

namespace Lox.Operator

/-- A fault at a token. -/
def fault {α : Type} (op : Token) (f : RuntimeFault) : Except Failure α :=
  .error (.runtime op.line f)

/-- Applies an operation on numbers. -/
def onNumbers (op : Token) (left right : Value) (f : Float → Float → Value) :
    Except Failure Value :=
  match left, right with
  | .number a, .number b => .ok (f a b)
  | _, _ => fault op (.operandsNotNumbers op.lexeme)

/-- Adds numbers. With a string on either side, joins the texts of both. -/
def add (op : Token) (left right : Value) : Except Failure Value :=
  match left, right with
  | .number a, .number b => .ok (.number (a + b))
  | .string a, b => .ok (.string (a ++ b.text))
  | a, .string b => .ok (.string (a.text ++ b))
  | _, _ => fault op .operandsNotAddable

def divide (op : Token) (left right : Value) : Except Failure Value :=
  match left, right with
  | .number a, .number b =>
    if b == 0.0 then fault op .divisionByZero else .ok (.number (a / b))
  | _, _ => fault op (.operandsNotNumbers op.lexeme)

def unary (op : Token) (v : Value) : Except Failure Value :=
  match op.kind with
  | .symbol .bang => .ok (.boolean (!v.isTruthy))
  | .symbol .minus =>
    match v with
    | .number x => .ok (.number (-x))
    | _ => fault op .operandNotNumber
  | _ => fault op (.invalidOperator op.lexeme)

def binary (op : Token) (left right : Value) : Except Failure Value :=
  match op.kind with
  | .symbol .comma => .ok right
  | .symbol .equalEqual => .ok (.boolean (left.equals right))
  | .symbol .bangEqual => .ok (.boolean (!left.equals right))
  | .symbol .plus => add op left right
  | .symbol .minus => onNumbers op left right fun a b => .number (a - b)
  | .symbol .star => onNumbers op left right fun a b => .number (a * b)
  | .symbol .slash => divide op left right
  | .symbol .greater => onNumbers op left right fun a b => .boolean (a > b)
  | .symbol .greaterEqual => onNumbers op left right fun a b => .boolean (a ≥ b)
  | .symbol .less => onNumbers op left right fun a b => .boolean (a < b)
  | .symbol .lessEqual => onNumbers op left right fun a b => .boolean (a ≤ b)
  | _ => fault op (.invalidOperator op.lexeme)

/-- Whether the left operand of a logical operator is its value already. `or` stops at what is
true, every other operator at what is not. -/
def decides (op : Token) (left : Value) : Bool :=
  if op.kind.isKeyword .kwOr then left.isTruthy else !left.isTruthy

end Lox.Operator
