import Mathlib.Data.List.Nodup
import Mathlib.Data.List.Perm.Subperm
import WhileLang.Proofs.Scope.Sameness

/-!
Equality of scopes. Where no name is bound twice, two scopes are equal exactly if their parents are
equal and every name has equal bindings in them, so the order of the bindings does not count. A
number that is not equal to itself is the only obstacle to a scope being equal to itself.
-/

namespace WhileLang

namespace Scope

variable {scope other : Scope} {name : String} {binding : Binding}

def names (scope : Scope) : List String := scope.entries.map Prod.fst

def Distinct (scope : Scope) : Prop := scope.names.Nodup

theorem length_names : scope.names.length = scope.size := List.length_map _

theorem names_add (others : Scope) : (add name binding others).names = name :: others.names := by
  rw [names, entries_add]
  rfl

theorem mem_names_iff : name ∈ scope.names ↔ (scope.get? name).isSome = true := by
  induction scope using add_induction with
  | outermost => simp [names, entries, get?]
  | within parent => simp [names, entries, get?]
  | add bound found others ih =>
      rw [names_add, get?_add, List.mem_cons, ih]
      by_cases isBound : bound = name
      · simp [isBound]
      · simp [isBound, Ne.symm isBound]

/-- A name that is bound keeps its place, and a new one comes last. -/
theorem names_bind (scope : Scope) : (scope.bind name binding).names =
    if name ∈ scope.names then scope.names else scope.names ++ [name] := by
  induction scope using add_induction with
  | outermost => exact names_add outermost
  | within parent => exact names_add (within parent)
  | add bound found others ih =>
      rw [bind_add, names_add]
      by_cases isBound : bound = name
      · simp [isBound, names_add]
      · rw [if_neg isBound, names_add, ih]
        by_cases isOther : name ∈ others.names <;> simp [isOther, Ne.symm isBound]

theorem distinct_outermost : Distinct outermost := List.nodup_nil

theorem distinct_within (parent : Scope) : Distinct (within parent) := List.nodup_nil

theorem Distinct.bind (distinct : scope.Distinct) (name : String) (binding : Binding) :
    (scope.bind name binding).Distinct := by
  rw [Distinct, names_bind]
  split
  · exact distinct
  · rename_i isNew
    rw [← List.concat_eq_append]
    exact List.Nodup.concat isNew distinct

theorem Distinct.mem_entries_iff (distinct : scope.Distinct) :
    (name, binding) ∈ scope.entries ↔ scope.get? name = some binding := by
  refine ⟨?_, mem_entries_of_get?⟩
  induction scope using add_induction with
  | outermost => nofun
  | within parent => nofun
  | add bound found others ih =>
      rw [Distinct, names_add, List.nodup_cons] at distinct
      intro isMember
      rw [entries_add] at isMember
      rw [get?_add]
      rcases List.mem_cons.mp isMember with isFirst | isLater
      · cases isFirst
        exact if_pos rfl
      · have isName : name ∈ others.names := List.mem_map_of_mem isLater
        have isOther : bound ≠ name := by
          rintro rfl
          exact distinct.1 isName
        rw [if_neg isOther]
        exact ih distinct.2 isLater

theorem agrees_add (others : Scope) : (add name binding others).agrees other =
    ((other.get? name).any binding.same && others.agrees other) := by
  cases binding with
  | value value =>
      rw [add, agrees]
      rcases other.get? name with _ | _ | _ <;> rfl
  | scope nested =>
      rw [add, agrees]
      rcases other.get? name with _ | _ | _ <;> rfl

theorem agrees_iff (scope other : Scope) : scope.agrees other = true ↔
    Option.Rel (·.same · = true) scope.parent? other.parent? ∧
      ∀ entry ∈ scope.entries, (other.get? entry.1).any entry.2.same = true := by
  induction scope using add_induction with
  | outermost =>
      rw [agrees, parent?]
      cases other.parent? with
      | none => simp [entries]
      | some parent => simp [entries]
  | within parent =>
      rw [agrees, parent?]
      cases other.parent? with
      | none => simp [entries]
      | some otherParent => simp [entries, same]
  | add name binding others ih =>
      rw [agrees_add, parent?_add, entries_add, List.forall_mem_cons, Bool.and_eq_true, ih]
      exact and_left_comm

theorem rel_some_iff {found? : Option Binding} :
    Option.Rel (·.same · = true) (some binding) found? ↔ found?.any binding.same = true := by
  cases found? <;> simp

theorem isSome_eq_of_rel {found? other? : Option Binding}
    (related : Option.Rel (·.same · = true) found? other?) : found?.isSome = other?.isSome := by
  cases related <;> rfl

/-- As many names on both sides leave no room for a name that only the other scope binds. -/
theorem names_perm_of_agrees (distinct : scope.Distinct) (sameSize : scope.size = other.size)
    (found : ∀ entry ∈ scope.entries, (other.get? entry.1).any entry.2.same = true) :
    scope.names.Perm other.names := by
  have included : scope.names ⊆ other.names := by
    intro name isName
    obtain ⟨entry, isEntry, rfl⟩ := List.mem_map.mp isName
    exact mem_names_iff.mpr (Option.isSome_of_any (found entry isEntry))
  refine (distinct.subperm included).perm_of_length_le ?_
  rw [length_names, length_names]
  exact Nat.le_of_eq sameSize.symm

theorem same_iff (distinct : scope.Distinct) (otherDistinct : other.Distinct) :
    scope.same other = true ↔
      Option.Rel (·.same · = true) scope.parent? other.parent? ∧
        ∀ name, Option.Rel (·.same · = true) (scope.get? name) (other.get? name) := by
  rw [same, Bool.and_eq_true, beq_iff_eq, agrees_iff]
  constructor
  · rintro ⟨sameSize, parents, found⟩
    refine ⟨parents, fun name => ?_⟩
    cases isBound : scope.get? name with
    | some binding => exact rel_some_iff.mpr (found _ (mem_entries_of_get? isBound))
    | none =>
        have unbound : name ∉ other.names := by
          rw [← (names_perm_of_agrees distinct sameSize found).mem_iff, mem_names_iff, isBound]
          exact Bool.false_ne_true
        rw [mem_names_iff, Option.isSome_iff_ne_none, not_not] at unbound
        rw [unbound]
        exact .none
  · rintro ⟨parents, bindings⟩
    have sameNames : scope.names.Perm other.names := by
      refine (List.perm_ext_iff_of_nodup distinct otherDistinct).mpr fun name => ?_
      rw [mem_names_iff, mem_names_iff, isSome_eq_of_rel (bindings name)]
    refine ⟨?_, parents, fun entry isEntry => ?_⟩
    · rw [← length_names, ← length_names, sameNames.length_eq]
    · rw [← rel_some_iff, ← distinct.mem_entries_iff.mp isEntry]
      exact bindings entry.1

end Scope

def Value.isDefined : Value → Bool
  | number value => !value.isNaN
  | boolean _ => true

theorem Value.same_self (value : Value) : value.same value = value.isDefined := by
  cases value with
  | boolean value => exact beq_self_eq_true value
  | number value =>
      change (value.toModel.unpack.compare value.toModel.unpack == some .eq) =
        !value.toModel.unpack.isNaN
      cases value.toModel.unpack with
      | notANumber => rfl
      | infinity sign | zero sign => cases sign <;> rfl
      | finite sign mantissa exponent positive =>
          have order : (compare exponent exponent).then (compare mantissa mantissa) = .eq := by simp
          cases sign with
          | positive =>
              change (some ((compare exponent exponent).then (compare mantissa mantissa)) ==
                some .eq) = true
              rw [order]
              rfl
          | negative =>
              change (some ((compare exponent exponent).then (compare mantissa mantissa)).swap ==
                some .eq) = true
              rw [order]
              rfl

def Scope.isDefined : Scope → Bool
  | outermost => true
  | within parent => parent.isDefined
  | withValue _ value others => value.isDefined && others.isDefined
  | withScope _ nested others => nested.isDefined && others.isDefined

def Binding.isDefined : Binding → Bool
  | .value held => held.isDefined
  | .scope nested => nested.isDefined

theorem Scope.isDefined_add (name : String) (binding : Binding) (others : Scope) :
    (add name binding others).isDefined = (binding.isDefined && others.isDefined) := by
  cases binding <;> rfl

theorem Scope.isDefined_iff_entries (scope : Scope) : scope.isDefined = true ↔
    scope.parent?.all isDefined = true ∧ ∀ entry ∈ scope.entries, entry.2.isDefined = true := by
  induction scope using add_induction with
  | outermost => simp [isDefined, parent?, entries]
  | within parent => simp [isDefined, parent?, entries]
  | add name binding others ih =>
      rw [isDefined_add, parent?_add, entries_add, List.forall_mem_cons, Bool.and_eq_true, ih]
      exact and_left_comm

theorem Scope.isDefined_iff {scope : Scope} (distinct : scope.Distinct) : scope.isDefined = true ↔
    scope.parent?.all isDefined = true ∧
      ∀ name, (scope.get? name).all Binding.isDefined = true := by
  rw [isDefined_iff_entries]
  refine and_congr_right fun _ => ?_
  simp only [Prod.forall, distinct.mem_entries_iff, Option.all_eq_true]

/-- No name is bound twice in a nested scope or in the scopes and parents inside it. A parent counts
as the binding of one more name. -/
inductive DistinctBinding : Option Binding → Prop
  | unbound : DistinctBinding none
  | value (value : Value) : DistinctBinding (some (.value value))
  | scope {nested : Scope} : nested.Distinct → (∀ name, DistinctBinding (nested.get? name)) →
      DistinctBinding (nested.parent?.map .scope) → DistinctBinding (some (.scope nested))

theorem rel_map_scope {parent? other? : Option Scope} :
    Option.Rel (·.same · = true) (parent?.map Binding.scope) (other?.map Binding.scope) ↔
      Option.Rel (·.same · = true) parent? other? := by
  cases parent? <;> cases other? <;> simp [Binding.same]

theorem all_map_scope {parent? : Option Scope} :
    (parent?.map Binding.scope).all Binding.isDefined = parent?.all Scope.isDefined := by
  cases parent? <;> rfl

theorem SameBinding.rel_iff {binding? other? : Option Binding} (same : SameBinding binding? other?)
    (distinct : DistinctBinding binding?) (otherDistinct : DistinctBinding other?) :
    Option.Rel (·.same · = true) binding? other? ↔ binding?.all Binding.isDefined = true := by
  induction same with
  | unbound => simp
  | value value => simp [Binding.same, Binding.isDefined, value.same_self]
  | scope _ _ bindingsIh parentsIh =>
      cases distinct with
      | scope distinct insides parent =>
          cases otherDistinct with
          | scope otherDistinct otherInsides otherParent =>
              have parents := parentsIh parent otherParent
              have bindings := fun name => bindingsIh name (insides name) (otherInsides name)
              rw [rel_map_scope, all_map_scope] at parents
              rw [Option.rel_some_some, Option.all_some, Binding.same, Binding.isDefined,
                Scope.same_iff distinct otherDistinct, Scope.isDefined_iff distinct, parents,
                forall_congr' bindings]

end WhileLang
