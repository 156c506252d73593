import WhileLang.Error

/-!
Scopes bind names to values or to nested scopes, and may have a parent. A scope is built from an
empty one, with or without a parent, by adding bindings; every operation here keeps at most one
binding for each name, so the order in which names were bound is visible only in `entries`.
-/

namespace WhileLang

inductive Scope where
  | outermost
  | within (parent : Scope)
  | withValue (name : String) (value : Value) (others : Scope)
  | withScope (name : String) (nested : Scope) (others : Scope)
deriving DecidableEq

inductive Binding where
  | value (value : Value)
  | scope (scope : Scope)
deriving DecidableEq

namespace Scope

def parent? : Scope → Option Scope
  | outermost => none
  | within parent => some parent
  | withValue _ _ others => others.parent?
  | withScope _ _ others => others.parent?

def get? (name : String) : Scope → Option Binding
  | outermost => none
  | within _ => none
  | withValue bound value others =>
      if bound = name then some (.value value) else others.get? name
  | withScope bound nested others =>
      if bound = name then some (.scope nested) else others.get? name

def value? (name : String) (scope : Scope) : Option Value :=
  match scope.get? name with
  | some (.value value) => some value
  | _ => none

def contains (name : String) (scope : Scope) : Bool := (scope.get? name).isSome

def entries : Scope → List (String × Binding)
  | outermost => []
  | within _ => []
  | withValue name value others => (name, .value value) :: others.entries
  | withScope name nested others => (name, .scope nested) :: others.entries

def size (scope : Scope) : Nat := scope.entries.length

def sorted (scope : Scope) : List (String × Binding) :=
  scope.entries.mergeSort fun first second => first.1 ≤ second.1

def add (name : String) (binding : Binding) (others : Scope) : Scope :=
  match binding with
  | .value value => withValue name value others
  | .scope nested => withScope name nested others

def bind (name : String) (binding : Binding) : Scope → Scope
  | outermost => add name binding outermost
  | within parent => add name binding (within parent)
  | withValue bound value others =>
      if bound = name then add name binding others
      else withValue bound value (others.bind name binding)
  | withScope bound nested others =>
      if bound = name then add name binding others
      else withScope bound nested (others.bind name binding)

def declare (name : String) (value : Value) (scope : Scope) : Scope :=
  scope.bind name (.value value)

def assign (name : String) (value : Value) (line : Nat) (scope : Scope) : Except Error Scope :=
  if scope.contains name then .ok (scope.bind name (.value value))
  else .error { line, fault := .unknownVariable name }

/-- The scope without a parent that binds the given names; of two values for a name the later one
counts. -/
def ofList (values : List (String × Value)) : Scope :=
  values.foldl (fun scope pair => scope.declare pair.1 pair.2) outermost

def agrees : Scope → Scope → Bool
  | outermost, other => other.parent?.isNone
  | within parent, other =>
      match other.parent? with
      | some otherParent => parent.size == otherParent.size && parent.agrees otherParent
      | none => false
  | withValue name value others, other =>
      (match other.get? name with
        | some (.value otherValue) => value.same otherValue
        | _ => false) && others.agrees other
  | withScope name nested others, other =>
      (match other.get? name with
        | some (.scope otherNested) =>
            nested.size == otherNested.size && nested.agrees otherNested
        | _ => false) && others.agrees other

/-- Equality of scopes as maps, parents included. Values compare by strict equality. -/
def same (scope other : Scope) : Bool := scope.size == other.size && scope.agrees other

theorem sizeOf_parent_lt {scope parent : Scope} (found : scope.parent? = some parent) :
    sizeOf parent < sizeOf scope := by
  induction scope with
  | outermost => simp [parent?] at found
  | within inner =>
      simp only [parent?, Option.some.injEq] at found
      subst found
      simp
  | withValue name value others ih =>
      have smaller := ih found
      simp only [withValue.sizeOf_spec]
      omega
  | withScope name nested others _ ih =>
      have smaller := ih found
      simp only [withScope.sizeOf_spec]
      omega

theorem sizeOf_get_lt {name : String} {scope nested : Scope}
    (found : scope.get? name = some (.scope nested)) : sizeOf nested < sizeOf scope := by
  induction scope with
  | outermost => simp [get?] at found
  | within inner => simp [get?] at found
  | withValue bound value others ih =>
      simp only [get?] at found
      split at found
      · simp at found
      · have smaller := ih found
        simp only [withValue.sizeOf_spec]
        omega
  | withScope bound inner others _ ih =>
      simp only [get?] at found
      split at found
      · simp only [Option.some.injEq, Binding.scope.injEq] at found
        subst found
        simp only [withScope.sizeOf_spec]
        omega
      · have smaller := ih found
        simp only [withScope.sizeOf_spec]
        omega

theorem sizeOf_view_lt {name : String} {nested parent inner : Scope}
    (hasParent : nested.parent? = some parent)
    (found : (nested.get? name).or (parent.get? name) = some (.scope inner)) :
    sizeOf inner < sizeOf nested := by
  cases own : nested.get? name with
  | none =>
      rw [own, Option.none_or] at found
      exact Nat.lt_trans (sizeOf_get_lt found) (sizeOf_parent_lt hasParent)
  | some binding =>
      rw [own, Option.some_or] at found
      exact sizeOf_get_lt (own.trans found)

/-- Looks a name up that is bound to a nested scope: in that scope, and failing that in its parent,
until a value is found. -/
def follow (name : String) (line : Nat) (nested : Scope) : Except Error Value :=
  match _hasParent : nested.parent? with
  | none => .error { line, fault := .notAValue name }
  | some parent =>
      match _found : (nested.get? name).or (parent.get? name) with
      | none => .error { line, fault := .unknownVariable name }
      | some (.value value) => .ok value
      | some (.scope inner) => follow name line inner
termination_by sizeOf nested
decreasing_by exact sizeOf_view_lt _hasParent _found

/-- The value of a name that is used on a line. The parent of the scope itself is not consulted. -/
def resolve (name : String) (line : Nat) (scope : Scope) : Except Error Value :=
  match scope.get? name with
  | none => .error { line, fault := .unknownVariable name }
  | some (.value value) => .ok value
  | some (.scope nested) => follow name line nested

end Scope

def Binding.same : Binding → Binding → Bool
  | value left, value right => left.same right
  | scope left, scope right => left.same right
  | _, _ => false

end WhileLang
