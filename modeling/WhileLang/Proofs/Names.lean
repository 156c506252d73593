import WhileLang.Machine
import WhileLang.Proofs.Paths

/-!
Giving other names to the variables of a program. A map of names acts on everything that holds
one: trees, scopes at any depth, and the errors of a run.
-/

namespace WhileLang

def Expression.rename (naming : String → String) : Expression → Expression
  | literal value line => literal value line
  | reference name line => reference (naming name) line
  | binary op left right line => binary op (left.rename naming) (right.rename naming) line

namespace Statement

mutual

def rename (naming : String → String) : Statement → Statement
  | declare name value line => declare (naming name) (value.rename naming) line
  | assign name value line => assign (naming name) (value.rename naming) line
  | branch condition whenTrue whenFalse line =>
      branch (condition.rename naming) (renameAll naming whenTrue) (renameAll naming whenFalse) line
  | loop condition body line => loop (condition.rename naming) (renameAll naming body) line
  | print value line => print (value.rename naming) line

def renameAll (naming : String → String) : List Statement → List Statement
  | [] => []
  | first :: rest => first.rename naming :: renameAll naming rest

end

@[simp] theorem renameAll_eq_map (naming : String → String) (statements : List Statement) :
    renameAll naming statements = statements.map (rename naming) := by
  induction statements with
  | nil => rfl
  | cons first rest ih => rw [renameAll, ih, List.map_cons]

@[simp] theorem line_rename (naming : String → String) (statement : Statement) :
    (statement.rename naming).line = statement.line := by
  cases statement <;> rfl

end Statement

def Fault.rename (naming : String → String) : Fault → Fault
  | unknownVariable name => unknownVariable (naming name)
  | notAValue name => notAValue (naming name)
  | other => other

def Error.rename (naming : String → String) (error : Error) : Error :=
  { error with fault := error.fault.rename naming }

/-- Renames in the scope, in the scopes nested in it and in their parents. -/
def Scope.rename (naming : String → String) : Scope → Scope
  | outermost => outermost
  | within parent => within (parent.rename naming)
  | withValue name value others => withValue (naming name) value (others.rename naming)
  | withScope name nested others =>
      withScope (naming name) (nested.rename naming) (others.rename naming)

def Binding.rename (naming : String → String) : Binding → Binding
  | .value plain => .value plain
  | .scope nested => .scope (nested.rename naming)

def Machine.rename (naming : String → String) (machine : Machine) : Machine :=
  { machine with scope := machine.scope.rename naming }

def Outcome.rename (naming : String → String) : Outcome → Outcome
  | finished machine => finished (machine.rename naming)
  | failed error machine => failed (error.rename naming) (machine.rename naming)
  | unfinished => unfinished

theorem Expression.rename_id (expression : Expression) : expression.rename id = expression := by
  induction expression with
  | literal value line | reference name line => rfl
  | binary op left right line leftIh rightIh => rw [rename, leftIh, rightIh]

namespace Statement

mutual

theorem rename_id (statement : Statement) : statement.rename id = statement := by
  cases statement with
  | declare name value line | assign name value line =>
      rw [rename, value.rename_id]
      rfl
  | print value line => rw [rename, value.rename_id]
  | branch condition whenTrue whenFalse line =>
      rw [rename, condition.rename_id, renameAll_id whenTrue, renameAll_id whenFalse]
  | loop condition body line => rw [rename, condition.rename_id, renameAll_id body]

theorem renameAll_id (statements : List Statement) : renameAll id statements = statements := by
  cases statements with
  | nil => rfl
  | cons first rest => rw [renameAll, rename_id first, renameAll_id rest]

end

end Statement

theorem Error.rename_id : Error.rename id = id := by
  funext ⟨line, fault⟩
  cases fault <;> rfl

end WhileLang
