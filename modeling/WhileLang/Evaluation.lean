import WhileLang.Scope
import WhileLang.Tree

/-!
The value of an expression. Both operands of an operator are evaluated, the left one first, before
the operator looks at either.
-/

namespace WhileLang

namespace Operator

def apply (op : Operator) (line : Nat) (left right : Value) : Except Error Value :=
  match op, left, right with
  | .add, .number left, .number right => .ok (.number (left + right))
  | .subtract, .number left, .number right => .ok (.number (left - right))
  | .multiply, .number left, .number right => .ok (.number (left * right))
  | .divide, .number left, .number right => .ok (.number (left / right))
  | .and, .boolean left, .boolean right => .ok (.boolean (left && right))
  | .or, .boolean left, .boolean right => .ok (.boolean (left || right))
  | .greater, .number left, .number right => .ok (.boolean (decide (left > right)))
  | .less, .number left, .number right => .ok (.boolean (decide (left < right)))
  | .strictEqual, left, right => .ok (.boolean (left.same right))
  | op, left, right => .error { line, fault := .operandKinds op left.kind right.kind }

end Operator

namespace Family

inductive Refusal where
  | error (error : Error)
  | foreignOperator (family : Family)
deriving DecidableEq

def takes : Family → Kind → Kind → Bool
  | arithmetic, left, right => left == .number && right == .number
  | logic, left, right => left == .boolean && right == .boolean
  | comparison, _, _ => true

/-- Applies an operator on behalf of a family. An operator of another family is refused once the
operands have passed. -/
def apply (family : Family) (op : Operator) (line : Nat) (left right : Value) :
    Except Refusal Value :=
  if op.family = family then (op.apply line left right).mapError .error
  else if family.takes left.kind right.kind then .error (.foreignOperator family)
  else .error (.error { line, fault := .operandKinds op left.kind right.kind })

end Family

def evaluate (scope : Scope) : Expression → Except Error Value
  | .literal value _ => .ok value
  | .reference name line => scope.resolve name line
  | .binary op left right line => do
      let leftValue ← evaluate scope left
      let rightValue ← evaluate scope right
      op.apply line leftValue rightValue

def Value.condition (line : Nat) : Value → Except Error Bool
  | boolean value => .ok value
  | number _ => .error { line, fault := .conditionKind .number }

def test (scope : Scope) (condition : Expression) (line : Nat) : Except Error Bool := do
  let value ← evaluate scope condition
  value.condition line

end WhileLang
