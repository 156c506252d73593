import WhileLang.Scope

/-!
What binding a name does to a scope: the name has the new binding, all other names and the parent
are as they were. And one hop of a look-up that goes through nested scopes.
-/

namespace WhileLang.Scope

theorem add_induction {motive : Scope → Prop} (outermost : motive outermost)
    (within : ∀ parent, motive (within parent))
    (add : ∀ name binding others, motive others → motive (add name binding others))
    (scope : Scope) : motive scope := by
  induction scope with
  | outermost => exact outermost
  | within parent => exact within parent
  | withValue name value others ih => exact add name (.value value) others ih
  | withScope name nested others _ ih => exact add name (.scope nested) others ih

variable {name : String} {binding : Binding}

theorem get?_add (other : String) (scope : Scope) :
    (add name binding scope).get? other =
      if name = other then some binding else scope.get? other := by
  cases binding <;> rfl

theorem parent?_add (scope : Scope) : (add name binding scope).parent? = scope.parent? := by
  cases binding <;> rfl

theorem entries_add (scope : Scope) :
    (add name binding scope).entries = (name, binding) :: scope.entries := by
  cases binding <;> rfl

theorem bind_add (bound : String) (found : Binding) (others : Scope) :
    (add bound found others).bind name binding =
      if bound = name then add name binding others
      else add bound found (others.bind name binding) := by
  cases found <;> rfl

theorem get?_bind (other : String) (scope : Scope) :
    (scope.bind name binding).get? other =
      if name = other then some binding else scope.get? other := by
  induction scope using add_induction with
  | outermost => exact get?_add other outermost
  | within parent => exact get?_add other (within parent)
  | add bound found others ih =>
      rw [bind_add]
      by_cases isBound : bound = name
      · subst isBound
        rw [if_pos rfl, get?_add, get?_add]
        split <;> rfl
      · rw [if_neg isBound, get?_add, get?_add, ih]
        by_cases isOther : bound = other
        · rw [if_pos isOther, if_neg fun same => isBound (isOther.trans same.symm), if_pos isOther]
        · rw [if_neg isOther, if_neg isOther]

theorem parent?_bind (scope : Scope) : (scope.bind name binding).parent? = scope.parent? := by
  induction scope using add_induction with
  | outermost => exact parent?_add outermost
  | within parent => exact parent?_add (within parent)
  | add bound found others ih =>
      rw [bind_add]
      split
      · rw [parent?_add, parent?_add]
      · rw [parent?_add, parent?_add, ih]

theorem mem_entries_of_bind {scope : Scope} {entry : String × Binding}
    (isMember : entry ∈ (scope.bind name binding).entries) :
    entry = (name, binding) ∨ entry ∈ scope.entries := by
  induction scope using add_induction with
  | outermost =>
      rw [bind, entries_add] at isMember
      exact List.mem_cons.mp isMember
  | within parent =>
      rw [bind, entries_add] at isMember
      exact List.mem_cons.mp isMember
  | add bound found others ih =>
      rw [bind_add] at isMember
      rw [entries_add]
      split at isMember
      · rw [entries_add] at isMember
        exact (List.mem_cons.mp isMember).imp_right (List.mem_cons_of_mem _)
      · rw [entries_add] at isMember
        rcases List.mem_cons.mp isMember with rfl | isMember
        · exact .inr List.mem_cons_self
        · exact (ih isMember).imp_right (List.mem_cons_of_mem _)

theorem mem_entries_of_get? {scope : Scope} (found : scope.get? name = some binding) :
    (name, binding) ∈ scope.entries := by
  induction scope using add_induction with
  | outermost => cases found
  | within parent => cases found
  | add bound other others ih =>
      rw [get?_add] at found
      rw [entries_add]
      split at found
      · rename_i isBound
        obtain rfl := Option.some.inj found
        rw [isBound]
        exact List.mem_cons_self
      · exact List.mem_cons_of_mem _ (ih found)

theorem follow_of_no_parent {name : String} {line : Nat} {nested : Scope}
    (noParent : nested.parent? = none) :
    nested.follow name line = .error { line, fault := .notAValue name } := by
  rw [follow]
  split
  · rfl
  · rename_i hasParent
    rw [noParent] at hasParent
    cases hasParent

theorem follow_of_parent {name : String} {line : Nat} {nested parent : Scope}
    (hasParent : nested.parent? = some parent) :
    nested.follow name line =
      match (nested.get? name).or (parent.get? name) with
      | none => .error { line, fault := .unknownVariable name }
      | some (.value value) => .ok value
      | some (.scope inner) => inner.follow name line := by
  rw [follow]
  split
  · rename_i noParent
    rw [noParent] at hasParent
    cases hasParent
  · rename_i other isOther
    obtain rfl : other = parent := Option.some.inj (isOther.symm.trans hasParent)
    split
    all_goals
      rename_i found
      rw [found]

end WhileLang.Scope
