import WhileLang.Parse.Basic

/-!
Expressions. There is one parser for each operator rank: it takes operands of the rank below and
joins them to the left for as long as an operator of its own rank follows. Below all ranks stand
literals, names and parenthesised expressions.
-/

namespace WhileLang.Parse

def operand (group : Parser Expression) : Parser Expression
  | line, [] => .error { line, fault := .endOfInput }
  | _, found :: rest =>
      match found.token with
      | .number value => .ok { node := .literal (.number value) found.line, rest }
      | .boolean value => .ok { node := .literal (.boolean value) found.line, rest }
      | .identifier name => .ok { node := .reference name found.line, rest }
      | .openParen => do
          let inner ← group found.line rest
          let close ← expect .closeParen found.line inner.rest
          return { node := inner.node, rest := close.rest }
      | other => .error { line := found.line, fault := .unexpected (.operand other) }

/-- Joins operands to `left` while an operator of the given rank follows. -/
def joined (rank : Nat) (next : Parser Expression) :
    Nat → Expression → List Located → Except Error (Parsed Expression)
  | limit + 1, left, found :: rest =>
      match found.token.operator? with
      | some op =>
          if op.rank = rank then do
            let right ← next found.line rest
            joined rank next limit (.binary op left right.node found.line) right.rest
          else .ok { node := left, rest := found :: rest }
      | none => .ok { node := left, rest := found :: rest }
  | _, left, tokens => .ok { node := left, rest := tokens }

def ranked (limit : Nat) (group : Parser Expression) : Nat → Parser Expression
  | 0 => operand group
  | rank + 1 => fun line tokens => do
      let left ← ranked limit group rank line tokens
      joined (rank + 1) (ranked limit group rank) limit left.node left.rest

def expressionWithin : Nat → Parser Expression
  | 0 => fun line _ => .error { line, fault := .endOfInput }
  | limit + 1 => ranked (limit + 1) (expressionWithin limit) Operator.loosest

def expressionOfRank (rank : Nat) : Parser Expression := fun line tokens =>
  ranked tokens.length (expressionWithin (tokens.length - 1)) rank line tokens

def expression : Parser Expression := expressionOfRank Operator.loosest

end WhileLang.Parse
