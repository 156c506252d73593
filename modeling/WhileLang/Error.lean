import WhileLang.Token

/-!
What can go wrong with a program, and on which line. A fault says the cause without the line, so
that two faults can be compared wherever they were found.
-/

namespace WhileLang

/-- How the text that was found differs from what could stand there. -/
inductive Mismatch where
  | character (found : Char)
  | operand (found : Token)
  | token (expected found : Token)
  | name (found : Token)
  | statement (found : Token)
deriving DecidableEq

def Mismatch.text : Mismatch → String
  | character found => String.singleton found
  | operand found => found.description
  | token expected found => "Expected " ++ expected.description ++ ", found " ++ found.description
  | name found => "Expected identifier, found " ++ found.description
  | statement found => "Expected a statement, found " ++ found.description

inductive Fault where
  | unexpected (mismatch : Mismatch)
  | endOfInput
  | reservedName (name : String)
  | nestingTooDeep (limit : Nat)
  | unknownVariable (name : String)
  | operandKinds (op : Operator) (left right : Kind)
  | conditionKind (found : Kind)
  | notAValue (name : String)
  | outputClosed
deriving DecidableEq

inductive Category where
  | parse
  | reference
  | type
  | output
deriving DecidableEq

namespace Fault

def category : Fault → Category
  | unexpected _ | endOfInput | reservedName _ | nestingTooDeep _ => .parse
  | unknownVariable _ => .reference
  | operandKinds _ _ _ | conditionKind _ | notAValue _ => .type
  | outputClosed => .output

def text : Fault → String
  | unexpected mismatch => "Unexpected token: " ++ mismatch.text ++ "."
  | endOfInput => "Unexpected end of input."
  | reservedName name => "Identifier " ++ name ++ " is reserved."
  | nestingTooDeep limit => "Nesting exceeds " ++ Nat.repr limit ++ " levels."
  | unknownVariable name => "ReferenceError: " ++ name ++ " is not defined."
  | operandKinds op left right =>
      "TypeError: invalid operand types for '" ++ op.symbol ++ "': found " ++ left.name ++
        " and " ++ right.name ++ "."
  | conditionKind found =>
      "TypeError: invalid condition type, expected a boolean but found " ++ found.name ++ "."
  | notAValue name => "TypeError: " ++ name ++ " is bound to a scope, not a value."
  | outputClosed => "Failed to write output: closed"

end Fault

structure Error where
  line : Nat
  fault : Fault
deriving DecidableEq

def Error.message (error : Error) : String :=
  "Error on line " ++ Nat.repr error.line ++ ": " ++ error.fault.text

end WhileLang
