import WhileLang.Proofs.Scope.Resolution

/-!
Resolving a name reads no other name. Two scopes that agree on the name, in themselves and hop by
hop in the nested scopes behind it, resolve it alike, whatever else is bound in them. Of the parents
only those of nested scopes on the way count, and of these only what they bind themselves. All the
rest can be deleted.
-/

namespace WhileLang.Scope

/-- Two bindings of the name that agree in all that a look-up of the name can come to. Nothing is
asked of other names, at any depth, or of the parent that the parent of a nested scope may have. -/
inductive Alike (name : String) : Option Binding → Option Binding → Prop
  | unbound : Alike name none none
  | value (value : Value) : Alike name (some (.value value)) (some (.value value))
  | alone {nested other : Scope} : nested.parent? = none → other.parent? = none →
      Alike name (some (.scope nested)) (some (.scope other))
  | inside {nested other parent otherParent : Scope} : nested.parent? = some parent →
      other.parent? = some otherParent → Alike name (nested.get? name) (other.get? name) →
      Alike name (parent.get? name) (otherParent.get? name) →
      Alike name (some (.scope nested)) (some (.scope other))

variable {name : String}

theorem Alike.isSome_eq {found other : Option Binding} (alike : Alike name found other) :
    other.isSome = found.isSome := by
  cases alike <;> rfl

theorem settle_or (line : Nat) (first second : Option Binding) :
    settle name line (first.or second) =
      if first.isSome then settle name line first else settle name line second := by
  cases first <;> rfl

theorem Alike.settle_eq {found other : Option Binding} (alike : Alike name found other)
    (line : Nat) : settle name line other = settle name line found := by
  induction alike with
  | unbound => rfl
  | value value => rfl
  | alone noParent otherNone =>
      rw [settle, settle, follow_of_no_parent noParent, follow_of_no_parent otherNone]
  | inside hasParent otherHas own _ ownIh parentIh =>
      rw [settle_hop hasParent, settle_hop otherHas, settle_or, settle_or, own.isSome_eq, ownIh,
        parentIh]

theorem resolve_eq_of_alike {scope other : Scope}
    (alike : Alike name (scope.get? name) (other.get? name)) (line : Nat) :
    other.resolve name line = scope.resolve name line := by
  rw [resolve_eq_settle, resolve_eq_settle, alike.settle_eq]

def holding (name : String) (base : Scope) : Option Binding → Scope
  | none => base
  | some binding => add name binding base

theorem get?_holding {base : Scope} (unbound : base.get? name = none) (binding? : Option Binding) :
    (holding name base binding?).get? name = binding? := by
  cases binding? with
  | none => exact unbound
  | some binding => exact (get?_add name base).trans (if_pos rfl)

theorem parent?_holding (name : String) (base : Scope) (binding? : Option Binding) :
    (holding name base binding?).parent? = base.parent? := by
  cases binding? with
  | none => rfl
  | some binding => exact parent?_add base

mutual

/-- The binding of the name without anything that resolving the name does not read. -/
def kept? (name : String) : Scope → Option Binding
  | outermost => none
  | within _ => none
  | withValue bound value others =>
      if bound = name then some (.value value) else others.kept? name
  | withScope bound nested others =>
      if bound = name then some (.scope (holding name (nested.bare name) (nested.kept? name)))
      else others.kept? name

def bare (name : String) : Scope → Scope
  | outermost => outermost
  | within parent => within (holding name outermost (parent.kept? name))
  | withValue _ _ others => others.bare name
  | withScope _ _ others => others.bare name

end

def only (name : String) (scope : Scope) : Scope := holding name outermost (scope.kept? name)

theorem get?_bare (scope : Scope) : (scope.bare name).get? name = none := by
  induction scope with
  | outermost => rfl
  | within parent _ => rfl
  | withValue _ _ others ih => exact ih
  | withScope _ _ others _ ih => exact ih

theorem parent?_bare (scope : Scope) : (scope.bare name).parent? =
    scope.parent?.map fun parent => parent.only name := by
  induction scope with
  | outermost => rfl
  | within parent _ => rfl
  | withValue _ _ others ih => exact ih
  | withScope _ _ others _ ih => exact ih

theorem kept?_eq (scope : Scope) : scope.kept? name = (scope.get? name).map fun binding =>
    match binding with
    | .value value => .value value
    | .scope nested => .scope (holding name (nested.bare name) (nested.kept? name)) := by
  induction scope with
  | outermost => rfl
  | within parent _ => rfl
  | withValue bound value others ih =>
      rw [kept?, get?]
      split
      · rfl
      · exact ih
  | withScope bound nested others _ ih =>
      rw [kept?, get?]
      split
      · rfl
      · exact ih

theorem get?_only (scope : Scope) : (scope.only name).get? name = scope.kept? name :=
  get?_holding rfl _

theorem alike_kept (scope : Scope) : Alike name (scope.get? name) (scope.kept? name) := by
  rw [kept?_eq]
  cases found : scope.get? name with
  | none => exact .unbound
  | some binding =>
      cases binding with
      | value value => exact .value value
      | scope nested =>
          have sameParent := parent?_holding name (nested.bare name) (nested.kept? name)
          rw [parent?_bare] at sameParent
          cases hasParent : nested.parent? with
          | none =>
              rw [hasParent] at sameParent
              exact .alone hasParent sameParent
          | some parent =>
              rw [hasParent] at sameParent
              refine .inside hasParent sameParent ?_ ?_
              · rw [get?_holding (get?_bare nested)]
                exact alike_kept nested
              · rw [get?_only]
                exact alike_kept parent
termination_by sizeOf scope
decreasing_by
  · exact sizeOf_get_lt found
  · exact Nat.lt_trans (sizeOf_parent_lt hasParent) (sizeOf_get_lt found)

/-- Scopes that agree on a name where its look-up comes by resolve it alike, whatever they bind
otherwise and whatever parents they have otherwise. In particular a scope resolves the name as it
does when everything else, at every depth, is deleted. -/
theorem resolve_reads_only_name (name : String) (line : Nat) :
    (∀ scope other : Scope, Alike name (scope.get? name) (other.get? name) →
      other.resolve name line = scope.resolve name line) ∧
    ∀ scope : Scope, (scope.only name).resolve name line = scope.resolve name line := by
  refine ⟨fun scope other alike => resolve_eq_of_alike alike line, fun scope => ?_⟩
  apply resolve_eq_of_alike
  rw [get?_only]
  exact alike_kept scope

/-- Other names are changed at every depth, a top scope and the parent of a nested scope get
parents; the name is still found in the parent of the nested scope. -/
theorem resolve_reads_only_name_nested :
    ∃ scope other : Scope, scope.get? "y" = none ∧ other.get? "y" = some (.value (.number 2)) ∧
      scope.parent? = none ∧ other.parent? = some outermost ∧
      other.resolve "x" 1 = scope.resolve "x" 1 ∧ scope.resolve "x" 1 = .ok (.boolean true) ∧
      scope.only "x" =
        withScope "x" (within (withValue "x" (.boolean true) outermost)) outermost ∧
      (scope.only "x").resolve "x" 1 = scope.resolve "x" 1 := by
  let parent : Scope := withValue "y" (.number 1) (withValue "x" (.boolean true) outermost)
  let scope : Scope := withScope "x" (withScope "z" outermost (within parent)) outermost
  let otherParent : Scope := withValue "x" (.boolean true) (within parent)
  let other : Scope :=
    withValue "y" (.number 2) (withScope "x" (within otherParent) (within outermost))
  have alike : Alike "x" (scope.get? "x") (other.get? "x") := .inside rfl rfl .unbound (.value _)
  have found : scope.resolve "x" 1 = .ok (.boolean true) := by cbv
  exact ⟨scope, other, rfl, rfl, rfl, rfl, (resolve_reads_only_name "x" 1).1 scope other alike,
    found, rfl, (resolve_reads_only_name "x" 1).2 scope⟩

end WhileLang.Scope
