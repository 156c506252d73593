import WhileLang.Machine
import WhileLang.Parse.Basic

/-!
Moving a program to other lines. A map of lines acts on everything that carries a line: tokens,
trees, errors, and what a run leaves behind. Whether two of them agree up to their lines is then
equality after all lines have been moved to the same one.
-/

namespace WhileLang

def Located.move (place : Nat → Nat) (located : Located) : Located :=
  { located with line := place located.line }

def Error.move (place : Nat → Nat) (error : Error) : Error :=
  { error with line := place error.line }

def Expression.move (place : Nat → Nat) : Expression → Expression
  | literal value line => literal value (place line)
  | reference name line => reference name (place line)
  | binary op left right line => binary op (left.move place) (right.move place) (place line)

namespace Statement

mutual

def move (place : Nat → Nat) : Statement → Statement
  | declare name value line => declare name (value.move place) (place line)
  | assign name value line => assign name (value.move place) (place line)
  | branch condition whenTrue whenFalse line =>
      branch (condition.move place) (moveAll place whenTrue) (moveAll place whenFalse) (place line)
  | loop condition body line => loop (condition.move place) (moveAll place body) (place line)
  | print value line => print (value.move place) (place line)

def moveAll (place : Nat → Nat) : List Statement → List Statement
  | [] => []
  | first :: rest => first.move place :: moveAll place rest

end

@[simp] theorem moveAll_eq_map (place : Nat → Nat) (statements : List Statement) :
    moveAll place statements = statements.map (move place) := by
  induction statements with
  | nil => rfl
  | cons first rest ih => rw [moveAll, ih, List.map_cons]

@[simp] theorem line_move (place : Nat → Nat) (statement : Statement) :
    (statement.move place).line = place statement.line := by
  cases statement <;> rfl

end Statement

def Parsed.move {α β : Type} (place : Nat → Nat) (node : α → β) (parsed : Parsed α) : Parsed β where
  node := node parsed.node
  rest := parsed.rest.map (Located.move place)

def moveResult {α β : Type} (place : Nat → Nat) (change : α → β) :
    Except Error α → Except Error β
  | .ok value => .ok (change value)
  | .error error => .error (error.move place)

def moveProgram (place : Nat → Nat) :
    Except Error (List Statement) → Except Error (List Statement) :=
  moveResult place (List.map (Statement.move place))

def Event.move (place : Nat → Nat) : Event → Event
  | programStarted statements => programStarted statements
  | programFinished bindings => programFinished bindings
  | statementStarted line => statementStarted (place line)
  | loopFinished line iterations => loopFinished (place line) iterations

def Machine.move (place : Nat → Nat) (machine : Machine) : Machine :=
  { machine with events := machine.events.map (Event.move place) }

def Outcome.move (place : Nat → Nat) : Outcome → Outcome
  | finished machine => finished (machine.move place)
  | failed error machine => failed (error.move place) (machine.move place)
  | unfinished => unfinished

theorem moveResult_bind {α β γ δ : Type} {place : Nat → Nat} {change : α → β} {last : γ → δ}
    {first : Except Error α} {next : α → Except Error γ} {other : β → Except Error δ}
    (commutes : ∀ value, other (change value) = moveResult place last (next value)) :
    (moveResult place change first >>= other) = moveResult place last (first >>= next) := by
  cases first with
  | error error => rfl
  | ok value => exact commutes value

theorem map_move_eq_of_tokens {tokens others : List Located} {line : Nat}
    (same : tokens.map Located.token = others.map Located.token) :
    tokens.map (Located.move fun _ => line) = others.map (Located.move fun _ => line) := by
  have rebuilt (tokens : List Located) : tokens.map (Located.move fun _ => line) =
      (tokens.map Located.token).map fun token => ⟨token, line⟩ := by
    rw [List.map_map]
    rfl
  rw [rebuilt tokens, rebuilt others, same]

theorem map_move_eq_self {place : Nat → Nat} {tokens : List Located}
    (onPlace : ∀ found ∈ tokens, place found.line = found.line) :
    tokens.map (Located.move place) = tokens := by
  refine (List.map_congr_left ?_).trans tokens.map_id
  intro found isMember
  rw [Located.move, onPlace found isMember]
  rfl

end WhileLang
