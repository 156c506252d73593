import WhileLang.Proofs.Scope

/-!
Resolving a name, told as a chain of bindings. The chain begins with the scope's own binding and
goes on behind every nested scope that has a parent; resolving reports where it ends.
-/

namespace WhileLang.Scope

/-- `Link scope name count found`: the look-up of the name comes to `found` after `count` hops. A
hop leads from a nested scope to its own binding of the name or, if it has none, to that of its
parent. -/
inductive Link (scope : Scope) (name : String) : Nat → Option Binding → Prop
  | own : Link scope name 0 (scope.get? name)
  | hop {count nested parent} : Link scope name count (some (.scope nested)) →
      nested.parent? = some parent →
      Link scope name (count + 1) ((nested.get? name).or (parent.get? name))

def Final (found : Option Binding) : Prop :=
  ∀ nested, found = some (.scope nested) → nested.parent? = none

def settle (name : String) (line : Nat) : Option Binding → Except Error Value
  | none => .error { line, fault := .unknownVariable name }
  | some (.value value) => .ok value
  | some (.scope nested) => nested.follow name line

variable {scope : Scope} {name : String}

theorem resolve_eq_settle (line : Nat) :
    scope.resolve name line = settle name line (scope.get? name) := by
  rw [resolve]
  rcases scope.get? name with _ | _ | _ <;> rfl

theorem settle_hop {nested parent : Scope} (hasParent : nested.parent? = some parent) (line : Nat) :
    settle name line (some (.scope nested)) =
      settle name line ((nested.get? name).or (parent.get? name)) := by
  rw [settle, follow_of_parent hasParent]
  rcases (nested.get? name).or (parent.get? name) with _ | _ | _ <;> rfl

theorem Link.settle_eq {count : Nat} {found : Option Binding} (link : Link scope name count found)
    (line : Nat) : settle name line found = scope.resolve name line := by
  induction link with
  | own => exact (resolve_eq_settle line).symm
  | hop _ hasParent ih =>
      rw [← settle_hop hasParent]
      exact ih

theorem Link.unique {count : Nat} {found other : Option Binding}
    (link : Link scope name count found) (otherLink : Link scope name count other) :
    found = other := by
  induction link generalizing other with
  | own =>
      cases otherLink
      rfl
  | hop _ hasParent ih =>
      cases otherLink with
      | hop before otherHas =>
          cases ih before
          rw [hasParent] at otherHas
          cases otherHas
          rfl

theorem Link.exists_earlier {count earlier : Nat} {found : Option Binding}
    (link : Link scope name count found) (before : earlier < count) :
    ∃ nested parent, Link scope name earlier (some (.scope nested)) ∧
      nested.parent? = some parent := by
  induction link with
  | own => omega
  | @hop count nested parent link hasParent ih =>
      by_cases isLast : earlier = count
      · subst isLast
        exact ⟨nested, parent, link, hasParent⟩
      · exact ih (by omega)

theorem final_none : Final none := nofun

theorem final_value (value : Value) : Final (some (.value value)) := nofun

theorem final_of_no_parent {nested : Scope} (noParent : nested.parent? = none) :
    Final (some (.scope nested)) := by
  rintro _ ⟨⟩
  exact noParent

theorem Link.count_le {last count : Nat} {final found : Option Binding}
    (lastLink : Link scope name last final) (isFinal : Final final)
    (link : Link scope name count found) : count ≤ last := by
  apply Nat.le_of_not_lt
  intro later
  obtain ⟨nested, parent, link, hasParent⟩ := link.exists_earlier later
  rw [isFinal nested (lastLink.unique link)] at hasParent
  cases hasParent

theorem Link.exists_final_of_nested {count : Nat} {found : Option Binding}
    (link : Link scope name count found)
    (inside : ∀ nested, found = some (.scope nested) →
      ∃ last final, Link scope name last final ∧ Final final) :
    ∃ last final, Link scope name last final ∧ Final final := by
  rcases found with _ | value | nested
  · exact ⟨count, none, link, final_none⟩
  · exact ⟨count, _, link, final_value value⟩
  · exact inside nested rfl

-- A nested scope that a hop leads to is smaller than the one it leads from.
theorem Link.exists_final {count : Nat} {nested : Scope}
    (link : Link scope name count (some (.scope nested))) :
    ∃ last final, Link scope name last final ∧ Final final := by
  cases hasParent : nested.parent? with
  | none => exact ⟨count, _, link, final_of_no_parent hasParent⟩
  | some parent =>
      have next := link.hop hasParent
      apply next.exists_final_of_nested
      intro inner found
      rw [found] at next
      exact next.exists_final
termination_by sizeOf nested
decreasing_by exact sizeOf_view_lt hasParent found

theorem exists_final (scope : Scope) (name : String) :
    ∃ last final, Link scope name last final ∧ Final final := by
  have first : Link scope name 0 (scope.get? name) := .own
  apply first.exists_final_of_nested
  intro nested found
  rw [found] at first
  exact first.exists_final

theorem Link.final_cases {count : Nat} {final : Option Binding}
    (link : Link scope name count final) (isFinal : Final final) (line : Nat) :
    (∃ value, final = some (.value value) ∧ scope.resolve name line = .ok value) ∨
    (∃ nested, final = some (.scope nested) ∧ nested.parent? = none ∧
      scope.resolve name line = .error { line, fault := .notAValue name }) ∨
    (final = none ∧ scope.resolve name line = .error { line, fault := .unknownVariable name }) := by
  rw [← link.settle_eq]
  rcases final with _ | value | nested
  · exact .inr (.inr ⟨rfl, rfl⟩)
  · exact .inl ⟨value, rfl, rfl⟩
  · have noParent := isFinal nested rfl
    exact .inr (.inl ⟨nested, rfl, noParent, follow_of_no_parent noParent⟩)

def EndsInValue (scope : Scope) (name : String) (value : Value) : Prop :=
  ∃ count, Link scope name count (some (.value value))

def EndsInScope (scope : Scope) (name : String) : Prop :=
  ∃ count nested, Link scope name count (some (.scope nested)) ∧ nested.parent? = none

def EndsUnbound (scope : Scope) (name : String) : Prop := ∃ count, Link scope name count none

theorem resolve_eq_ok_iff (line : Nat) {value : Value} :
    scope.resolve name line = .ok value ↔ EndsInValue scope name value := by
  constructor
  · intro resolved
    obtain ⟨last, final, link, isFinal⟩ := exists_final scope name
    obtain ⟨found, rfl, result⟩ | ⟨_, _, _, result⟩ | ⟨_, result⟩ := link.final_cases isFinal line
    · cases resolved.symm.trans result
      exact ⟨last, link⟩
    all_goals cases resolved.symm.trans result
  · rintro ⟨count, link⟩
    exact (link.settle_eq line).symm

theorem resolve_eq_notAValue_iff (line : Nat) :
    scope.resolve name line = .error { line, fault := .notAValue name } ↔
      EndsInScope scope name := by
  constructor
  · intro failed
    obtain ⟨last, final, link, isFinal⟩ := exists_final scope name
    obtain ⟨_, _, result⟩ | ⟨nested, rfl, noParent, _⟩ | ⟨_, result⟩ :=
      link.final_cases isFinal line
    · cases failed.symm.trans result
    · exact ⟨last, nested, link, noParent⟩
    · cases failed.symm.trans result
  · rintro ⟨count, nested, link, noParent⟩
    rw [← link.settle_eq]
    exact follow_of_no_parent noParent

theorem resolve_eq_unknown_iff (line : Nat) :
    scope.resolve name line = .error { line, fault := .unknownVariable name } ↔
      EndsUnbound scope name := by
  constructor
  · intro failed
    obtain ⟨last, final, link, isFinal⟩ := exists_final scope name
    obtain ⟨_, _, result⟩ | ⟨_, _, _, result⟩ | ⟨rfl, _⟩ := link.final_cases isFinal line
    · cases failed.symm.trans result
    · cases failed.symm.trans result
    · exact ⟨last, link⟩
  · rintro ⟨count, link⟩
    exact (link.settle_eq line).symm

/-- The chain of a name has a last link. Resolving the name gives the value that the chain ends in,
or says that it ends in a scope or unbound; and it ends in exactly one of these ways. -/
theorem resolve_reports_end (scope : Scope) (name : String) (line : Nat) :
    (∃ last, (∃ final, Link scope name last final) ∧
      ∀ count found, Link scope name count found → count ≤ last) ∧
    (∀ value, scope.resolve name line = .ok value ↔ EndsInValue scope name value) ∧
    (scope.resolve name line = .error { line, fault := .notAValue name } ↔
      EndsInScope scope name) ∧
    (scope.resolve name line = .error { line, fault := .unknownVariable name } ↔
      EndsUnbound scope name) ∧
    ((∃ value, EndsInValue scope name value) ∧ ¬ EndsInScope scope name ∧
        ¬ EndsUnbound scope name ∨
      (¬ ∃ value, EndsInValue scope name value) ∧ EndsInScope scope name ∧
        ¬ EndsUnbound scope name ∨
      (¬ ∃ value, EndsInValue scope name value) ∧ ¬ EndsInScope scope name ∧
        EndsUnbound scope name) := by
  obtain ⟨last, final, link, isFinal⟩ := exists_final scope name
  refine ⟨⟨last, ⟨final, link⟩, fun _ _ => link.count_le isFinal⟩, fun _ => resolve_eq_ok_iff line,
    resolve_eq_notAValue_iff line, resolve_eq_unknown_iff line, ?_⟩
  simp only [← resolve_eq_ok_iff line, ← resolve_eq_notAValue_iff line,
    ← resolve_eq_unknown_iff line]
  obtain ⟨value, _, result⟩ | ⟨_, _, _, result⟩ | ⟨_, result⟩ := link.final_cases isFinal line
  all_goals
    rw [result]
    simp

theorem resolve_reports_end_parent :
    ∃ scope, Link scope "x" 1 (some (.value (.boolean true))) ∧
      (∀ count found, Link scope "x" count found → count ≤ 1) ∧
      scope.resolve "x" 1 = .ok (.boolean true) := by
  let outer : Scope := withValue "x" (.boolean true) outermost
  let scope : Scope := withScope "x" (within outer) outermost
  have first : Link scope "x" 0 (some (.scope (within outer))) := .own
  have link : Link scope "x" 1 (some (.value (.boolean true))) := first.hop rfl
  obtain ⟨_, hasValue, _⟩ := resolve_reports_end scope "x" 1
  exact ⟨scope, link, fun _ _ => link.count_le (final_value _), (hasValue _).mpr ⟨1, link⟩⟩

-- A name that only the parent of a parent binds is not found.
example : (withScope "x" (within (within (withValue "x" (.boolean true) outermost)))
    outermost).resolve "x" 1 = .error { line := 1, fault := .unknownVariable "x" } := by cbv

end WhileLang.Scope
