import WhileLang.Parse.Expression

/-!
Statements, blocks and whole programs. The first token of a statement decides its form, except that
a name begins an assignment only if an equals sign follows it.
-/

namespace WhileLang.Parse

def condition (limit : Nat) : Parser Expression := fun line tokens => do
  let opened ← expect .openParen line tokens
  let inner ← expressionWithin limit line opened.rest
  let close ← expect .closeParen line inner.rest
  return { node := inner.node, rest := close.rest }

def closingExpression (limit : Nat) : Parser Expression := fun line tokens => do
  let value ← expressionWithin limit line tokens
  let close ← expect .semicolon line value.rest
  return { node := value.node, rest := close.rest }

/-- The statements up to the closing brace of a block that was opened on line `opened`. -/
def blockRest (statement : Parser Statement) (opened : Nat) :
    Nat → List Located → Except Error (Parsed (List Statement))
  | limit + 1, found :: rest =>
      if found.token = .closeBrace then .ok { node := [], rest }
      else do
        let first ← statement found.line (found :: rest)
        let others ← blockRest statement opened limit first.rest
        return { node := first.node :: others.node, rest := others.rest }
  | _, _ => .error { line := opened, fault := .endOfInput }

def blockOf (limit : Nat) (statement : Parser Statement) : Parser (List Statement) :=
  fun line tokens => do
    let opened ← expect .openBrace line tokens
    blockRest statement opened.node limit opened.rest

def declaration (limit : Nat) (line : Nat) (tokens : List Located) :
    Except Error (Parsed Statement) := do
  let target ← name line tokens
  let sign ← expect .equals line target.rest
  let value ← closingExpression limit line sign.rest
  return { node := .declare target.node value.node line, rest := value.rest }

/-- What follows the `else` of a branch: another branch on its own, or a block. Without an `else`
there are no statements. -/
def alternative (limit : Nat) (statement : Parser Statement) :
    List Located → Except Error (Parsed (List Statement))
  | found :: rest =>
      if found.token = .keyword .elseWord then
        match rest with
        | next :: _ =>
            if next.token = .keyword .ifWord then do
              let chained ← statement found.line rest
              return { node := [chained.node], rest := chained.rest }
            else blockOf limit statement found.line rest
        | [] => blockOf limit statement found.line rest
      else .ok { node := [], rest := found :: rest }
  | [] => .ok { node := [], rest := [] }

def branch (limit : Nat) (statement : Parser Statement) (line : Nat) (tokens : List Located) :
    Except Error (Parsed Statement) := do
  let test ← condition limit line tokens
  let whenTrue ← blockOf limit statement line test.rest
  let whenFalse ← alternative limit statement whenTrue.rest
  return {
    node := .branch test.node whenTrue.node whenFalse.node line
    rest := whenFalse.rest }

def loop (limit : Nat) (statement : Parser Statement) (line : Nat) (tokens : List Located) :
    Except Error (Parsed Statement) := do
  let test ← condition limit line tokens
  let body ← blockOf limit statement line test.rest
  return { node := .loop test.node body.node line, rest := body.rest }

def statementOf (limit : Nat) (nested : Parser Statement) : Parser Statement
  | line, [] => .error { line, fault := .endOfInput }
  | _, found :: rest =>
      match found.token, rest with
      | .keyword .letWord, rest => declaration limit found.line rest
      | .keyword .ifWord, rest => branch limit nested found.line rest
      | .keyword .whileWord, rest => loop limit nested found.line rest
      | .keyword .printWord, rest => do
          let value ← closingExpression limit found.line rest
          return { node := .print value.node found.line, rest := value.rest }
      | .identifier target, { token := .equals, .. } :: rest => do
          let value ← closingExpression limit found.line rest
          return { node := .assign target value.node found.line, rest := value.rest }
      | other, _ => .error { line := found.line, fault := .unexpected (.statement other) }

def statementWithin : Nat → Parser Statement
  | 0 => fun line _ => .error { line, fault := .endOfInput }
  | limit + 1 => statementOf limit (statementWithin limit)

def statement : Parser Statement := fun line tokens =>
  statementWithin tokens.length line tokens

def block : Parser (List Statement) := fun line tokens =>
  blockOf tokens.length (statementWithin tokens.length) line tokens

def statementsWith (statement : Parser Statement) :
    Nat → List Located → Except Error (List Statement)
  | limit + 1, found :: rest => do
      let first ← statement found.line (found :: rest)
      let others ← statementsWith statement limit first.rest
      return first.node :: others
  | _, _ => .ok []

def statements (tokens : List Located) : Except Error (List Statement) :=
  statementsWith (statementWithin tokens.length) tokens.length tokens

end WhileLang.Parse
