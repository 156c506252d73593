/-!
The binary operators: their symbols, how tightly they bind, and the family that decides which
operands they take.
-/

namespace WhileLang

inductive Operator where
  | add
  | subtract
  | multiply
  | divide
  | and
  | or
  | greater
  | less
  | strictEqual
deriving DecidableEq

inductive Family where
  | arithmetic
  | logic
  | comparison
deriving DecidableEq

structure UnknownOperator where
  symbol : String
deriving DecidableEq

def UnknownOperator.message (unknown : UnknownOperator) : String :=
  "Invalid binary operator: " ++ unknown.symbol

namespace Operator

def all : List Operator :=
  [add, subtract, multiply, divide, and, or, greater, less, strictEqual]

def symbol : Operator → String
  | add => "+"
  | subtract => "-"
  | multiply => "*"
  | divide => "/"
  | and => "&&"
  | or => "||"
  | greater => ">"
  | less => "<"
  | strictEqual => "==="

def ofSymbol (symbol : String) : Except UnknownOperator Operator :=
  match all.find? (fun op => op.symbol == symbol) with
  | some op => .ok op
  | none => .error { symbol }

/-- Operators of lower rank bind tighter; those of one rank group to the left. -/
def rank : Operator → Nat
  | multiply | divide => 1
  | add | subtract => 2
  | greater | less => 3
  | strictEqual => 4
  | and => 5
  | or => 6

def loosest : Nat := 6

def family : Operator → Family
  | add | subtract | multiply | divide => .arithmetic
  | and | or => .logic
  | greater | less | strictEqual => .comparison

end Operator

end WhileLang
