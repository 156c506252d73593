/-!
Patterns of text: a regular expression language with its meaning and a matcher for the longest
front of a text. The matcher reads one character at a time and keeps the pattern that the rest of
the text still has to match.
-/

namespace WhileLang

inductive Pattern where
  | never
  | empty
  | one (accepts : Char → Bool)
  | either (first second : Pattern)
  | followedBy (first second : Pattern)
  | many (repeated : Pattern)

namespace Pattern

inductive Matches : Pattern → List Char → Prop
  | empty : Matches empty []
  | one {accepts : Char → Bool} {c : Char} : accepts c = true → Matches (one accepts) [c]
  | first {first second : Pattern} {text : List Char} :
      Matches first text → Matches (either first second) text
  | second {first second : Pattern} {text : List Char} :
      Matches second text → Matches (either first second) text
  | followedBy {first second : Pattern} {front back : List Char} :
      Matches first front → Matches second back →
        Matches (followedBy first second) (front ++ back)
  | done {repeated : Pattern} : Matches (many repeated) []
  | again {repeated : Pattern} {front back : List Char} :
      Matches repeated front → Matches (many repeated) back →
        Matches (many repeated) (front ++ back)

def char (expected : Char) : Pattern := one (· == expected)

def literal : List Char → Pattern
  | [] => empty
  | c :: rest => followedBy (char c) (literal rest)

def optional (pattern : Pattern) : Pattern := either pattern empty

def oneOrMore (pattern : Pattern) : Pattern := followedBy pattern (many pattern)

def acceptsEmpty : Pattern → Bool
  | never => false
  | empty => true
  | one _ => false
  | either first second => first.acceptsEmpty || second.acceptsEmpty
  | followedBy first second => first.acceptsEmpty && second.acceptsEmpty
  | many _ => true

def choice : Pattern → Pattern → Pattern
  | never, second => second
  | first, never => first
  | first, second => either first second

def sequence : Pattern → Pattern → Pattern
  | never, _ => never
  | empty, second => second
  | first, second => followedBy first second

/-- What remains to be matched after a character was read. -/
def after (c : Char) : Pattern → Pattern
  | never => never
  | empty => never
  | one accepts => if accepts c then empty else never
  | either first second => choice (first.after c) (second.after c)
  | followedBy first second =>
      let direct := sequence (first.after c) second
      if first.acceptsEmpty then choice direct (second.after c) else direct
  | many repeated => sequence (repeated.after c) (many repeated)

def longest : Pattern → List Char → Option Nat
  | never, _ => none
  | pattern, [] => if pattern.acceptsEmpty then some 0 else none
  | pattern, c :: rest =>
      match (pattern.after c).longest rest with
      | some length => some (length + 1)
      | none => if pattern.acceptsEmpty then some 0 else none

end Pattern

end WhileLang
