import WhileLang.Error

/-!
The limit on nested brackets. Parentheses and braces count together, and a closing bracket without
an opening one is ignored.
-/

namespace WhileLang.Nesting

def limit : Nat := 256

def checkFrom : Nat → List Located → Except Error Unit
  | _, [] => .ok ()
  | depth, found :: rest =>
      match found.token with
      | .openParen | .openBrace =>
          if depth < limit then checkFrom (depth + 1) rest
          else .error { line := found.line, fault := .nestingTooDeep limit }
      | .closeParen | .closeBrace => checkFrom (depth - 1) rest
      | _ => checkFrom depth rest

def check (tokens : List Located) : Except Error Unit := checkFrom 0 tokens

end WhileLang.Nesting
