import WhileLang.Error
import WhileLang.Tree

/-!
Parsing takes a node off the front of a list of tokens and hands back what is left. A parser is
also given a line, which it reports if the tokens run out before its first one.

Parsers that repeat or call themselves carry a limit. Each round consumes a token, so a limit of
as many rounds as there are tokens is never felt; where it is used up the tokens are too, and the
input has ended.
-/

namespace WhileLang

structure Parsed (α : Type) where
  node : α
  rest : List Located
deriving DecidableEq

abbrev Parser (α : Type) := Nat → List Located → Except Error (Parsed α)

namespace Parse

def expect (expected : Token) : Parser Nat
  | line, [] => .error { line, fault := .endOfInput }
  | _, found :: rest =>
      if found.token = expected then .ok { node := found.line, rest }
      else .error { line := found.line, fault := .unexpected (.token expected found.token) }

def name : Parser String
  | line, [] => .error { line, fault := .endOfInput }
  | _, found :: rest =>
      match found.token with
      | .identifier name => .ok { node := name, rest }
      | other =>
          match other.reserved? with
          | some word => .error { line := found.line, fault := .reservedName word }
          | none => .error { line := found.line, fault := .unexpected (.name other) }

end Parse

end WhileLang
