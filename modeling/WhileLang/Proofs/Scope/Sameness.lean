import WhileLang.Proofs.Scope

/-!
When two bindings are the same whatever the order in which names were bound, inside nested scopes
and their parents too. Resolving a name does not tell such bindings apart.
-/

namespace WhileLang

/-- What a name is bound to in two scopes, if it is bound, is the same: one value, or nested scopes
that bind the same names to the same and have the same parent. A parent is compared as if it were
the binding of one more name. -/
inductive SameBinding : Option Binding → Option Binding → Prop
  | unbound : SameBinding none none
  | value (value : Value) : SameBinding (some (.value value)) (some (.value value))
  | scope {nested other : Scope} :
      (∀ name, SameBinding (nested.get? name) (other.get? name)) →
      SameBinding (nested.parent?.map .scope) (other.parent?.map .scope) →
        SameBinding (some (.scope nested)) (some (.scope other))

namespace SameBinding

theorem scope_refl (scope : Scope) : SameBinding (some (.scope scope)) (some (.scope scope)) := by
  refine .scope (fun name => ?_) ?_
  · cases found : scope.get? name with
    | none => exact .unbound
    | some binding =>
        cases binding with
        | value value => exact .value value
        | scope nested => exact scope_refl nested
  · cases hasParent : scope.parent? with
    | none => exact .unbound
    | some parent => exact scope_refl parent
termination_by sizeOf scope
decreasing_by
  · exact Scope.sizeOf_get_lt found
  · exact Scope.sizeOf_parent_lt hasParent

theorem refl (binding? : Option Binding) : SameBinding binding? binding? := by
  rcases binding? with _ | value | scope
  · exact .unbound
  · exact .value value
  · exact scope_refl scope

theorem isSome_eq {binding? other? : Option Binding} (same : SameBinding binding? other?) :
    other?.isSome = binding?.isSome := by
  cases same <;> rfl

theorem or {first? second? other? another? : Option Binding} (same : SameBinding first? other?)
    (alsoSame : SameBinding second? another?) :
    SameBinding (first?.or second?) (other?.or another?) := by
  cases same with
  | unbound => exact alsoSame
  | value value => exact .value value
  | scope bindings parents => exact .scope bindings parents

theorem no_parent {nested other : Scope}
    (same : SameBinding (some (.scope nested)) (some (.scope other)))
    (noParent : nested.parent? = none) : other.parent? = none := by
  cases same with
  | scope _ parents =>
      rw [noParent] at parents
      cases hasParent : other.parent? with
      | none => rfl
      | some parent =>
          rw [hasParent] at parents
          cases parents

/-- Nested scopes that are the same have parents that are, so a name is bound alike in both views
of a nested scope over its parent. -/
theorem view {nested other parent : Scope}
    (same : SameBinding (some (.scope nested)) (some (.scope other)))
    (hasParent : nested.parent? = some parent) :
    ∃ otherParent, other.parent? = some otherParent ∧
      ∀ name, SameBinding ((nested.get? name).or (parent.get? name))
        ((other.get? name).or (otherParent.get? name)) := by
  cases same with
  | scope bindings parents =>
      rw [hasParent] at parents
      cases otherHas : other.parent? with
      | none =>
          rw [otherHas] at parents
          cases parents
      | some otherParent =>
          rw [otherHas] at parents
          cases parents with
          | scope parentBindings _ =>
              exact ⟨otherParent, rfl, fun name => (bindings name).or (parentBindings name)⟩

theorem follow_eq {nested other : Scope}
    (same : SameBinding (some (.scope nested)) (some (.scope other))) (name : String)
    (line : Nat) : other.follow name line = nested.follow name line := by
  cases hasParent : nested.parent? with
  | none =>
      rw [Scope.follow_of_no_parent hasParent, Scope.follow_of_no_parent (same.no_parent hasParent)]
  | some parent =>
      obtain ⟨otherParent, otherHas, views⟩ := same.view hasParent
      have sameView := views name
      rw [Scope.follow_of_parent hasParent, Scope.follow_of_parent otherHas]
      generalize isFound : (nested.get? name).or (parent.get? name) = found at sameView ⊢
      generalize (other.get? name).or (otherParent.get? name) = otherFound at sameView ⊢
      cases sameView with
      | unbound => rfl
      | value value => rfl
      | scope bindings parents => exact follow_eq (.scope bindings parents) name line
termination_by sizeOf nested
decreasing_by exact Scope.sizeOf_view_lt hasParent isFound

theorem resolve_eq {scope other : Scope} {name : String}
    (same : SameBinding (scope.get? name) (other.get? name)) (line : Nat) :
    other.resolve name line = scope.resolve name line := by
  rw [Scope.resolve, Scope.resolve]
  generalize scope.get? name = found at same ⊢
  generalize other.get? name = otherFound at same ⊢
  cases same with
  | unbound => rfl
  | value value => rfl
  | scope bindings parents => exact (SameBinding.scope bindings parents).follow_eq name line

end SameBinding

end WhileLang
