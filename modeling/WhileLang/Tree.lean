import WhileLang.Operator
import WhileLang.Value

/-!
Programs as trees. Every node keeps the line it was written on; a binary node keeps the line of its
operator.
-/

namespace WhileLang

inductive Expression where
  | literal (value : Value) (line : Nat)
  | reference (name : String) (line : Nat)
  | binary (op : Operator) (left right : Expression) (line : Nat)
deriving DecidableEq

namespace Expression

def line : Expression → Nat
  | literal _ line => line
  | reference _ line => line
  | binary _ _ _ line => line

/-- Whether two trees agree, lines included. Literals compare by strict equality. -/
def same : Expression → Expression → Bool
  | literal value line, literal otherValue otherLine => value.same otherValue && line == otherLine
  | reference name line, reference otherName otherLine => name == otherName && line == otherLine
  | binary op left right line, binary otherOp otherLeft otherRight otherLine =>
      op == otherOp && left.same otherLeft && right.same otherRight && line == otherLine
  | _, _ => false

end Expression

inductive Statement where
  | declare (name : String) (value : Expression) (line : Nat)
  | assign (name : String) (value : Expression) (line : Nat)
  | branch (condition : Expression) (whenTrue whenFalse : List Statement) (line : Nat)
  | loop (condition : Expression) (body : List Statement) (line : Nat)
  | print (value : Expression) (line : Nat)

namespace Statement

def line : Statement → Nat
  | declare _ _ line => line
  | assign _ _ line => line
  | branch _ _ _ line => line
  | loop _ _ line => line
  | print _ line => line

mutual

def same : Statement → Statement → Bool
  | declare name value line, declare otherName otherValue otherLine =>
      name == otherName && value.same otherValue && line == otherLine
  | assign name value line, assign otherName otherValue otherLine =>
      name == otherName && value.same otherValue && line == otherLine
  | branch condition whenTrue whenFalse line,
      branch otherCondition otherTrue otherFalse otherLine =>
      condition.same otherCondition && sameAll whenTrue otherTrue &&
        sameAll whenFalse otherFalse && line == otherLine
  | loop condition body line, loop otherCondition otherBody otherLine =>
      condition.same otherCondition && sameAll body otherBody && line == otherLine
  | print value line, print otherValue otherLine => value.same otherValue && line == otherLine
  | _, _ => false

def sameAll : List Statement → List Statement → Bool
  | [], [] => true
  | first :: rest, other :: others => same first other && sameAll rest others
  | _, _ => false

end

end Statement

end WhileLang
