import Mathlib.Logic.Function.Basic
import WhileLang.Proofs.Execution.Simulation

/-!
No name is special to a run. When all names, in a program and at every depth of the scope that it
starts from, are replaced by others, distinct ones by distinct ones, the program runs as before: it
prints and records the same, and the scope it leaves and the error it fails with have the new names
in place of the old ones.
-/

namespace WhileLang

variable {naming : String → String}

namespace Scope

theorem rename_add (name : String) (binding : Binding) (others : Scope) :
    (add name binding others).rename naming =
      add (naming name) (binding.rename naming) (others.rename naming) := by
  cases binding <;> rfl

theorem parent?_rename (scope : Scope) :
    (scope.rename naming).parent? = scope.parent?.map (rename naming) := by
  induction scope using add_induction with
  | outermost | within parent => rfl
  | add name binding others ih => rw [rename_add, parent?_add, parent?_add, ih]

variable (injective : Function.Injective naming)

include injective

theorem get?_rename (name : String) (scope : Scope) :
    (scope.rename naming).get? (naming name) = (scope.get? name).map (Binding.rename naming) := by
  induction scope using add_induction with
  | outermost | within parent => rfl
  | add bound binding others ih =>
      rw [rename_add, get?_add, get?_add]
      by_cases isBound : bound = name
      · rw [if_pos isBound, if_pos (congrArg naming isBound)]
        rfl
      · rw [if_neg isBound, if_neg fun same => isBound (injective same), ih]

theorem bind_rename (name : String) (binding : Binding) (scope : Scope) :
    (scope.rename naming).bind (naming name) (binding.rename naming) =
      (scope.bind name binding).rename naming := by
  induction scope using add_induction with
  | outermost | within parent =>
      rw [bind, rename_add]
      rfl
  | add bound found others ih =>
      rw [rename_add, bind_add, bind_add]
      by_cases isBound : bound = name
      · rw [if_pos isBound, if_pos (congrArg naming isBound), rename_add]
      · rw [if_neg isBound, if_neg fun same => isBound (injective same), rename_add, ih]

theorem contains_rename (name : String) (scope : Scope) :
    (scope.rename naming).contains (naming name) = scope.contains name := by
  rw [contains, get?_rename injective, contains, Option.isSome_map]

theorem view_rename (name : String) (nested parent : Scope) :
    ((nested.rename naming).get? (naming name)).or ((parent.rename naming).get? (naming name)) =
      ((nested.get? name).or (parent.get? name)).map (Binding.rename naming) := by
  rw [get?_rename injective, get?_rename injective]
  cases nested.get? name <;> rfl

theorem follow_rename (name : String) (line : Nat) (nested : Scope) :
    (nested.rename naming).follow (naming name) line =
      (nested.follow name line).mapError (Error.rename naming) := by
  have renamedParent {nested parent : Scope} (hasParent : nested.parent? = some parent) :
      (nested.rename naming).parent? = some (parent.rename naming) := by
    rw [parent?_rename, hasParent]
    rfl
  fun_induction follow name line nested with
  | case1 nested noParent =>
      rw [follow_of_no_parent]
      · rfl
      · rw [parent?_rename, noParent]
        rfl
  | case2 nested parent hasParent missing =>
      rw [follow_of_parent (renamedParent hasParent), view_rename injective, missing]
      rfl
  | case3 nested parent hasParent value found =>
      rw [follow_of_parent (renamedParent hasParent), view_rename injective, found]
      rfl
  | case4 nested parent hasParent inner found ih =>
      rw [follow_of_parent (renamedParent hasParent), view_rename injective, found]
      exact ih

theorem resolve_rename (name : String) (line : Nat) (scope : Scope) :
    (scope.rename naming).resolve (naming name) line =
      (scope.resolve name line).mapError (Error.rename naming) := by
  rw [resolve, get?_rename injective, resolve]
  cases scope.get? name with
  | none => rfl
  | some binding =>
      cases binding with
      | value value => rfl
      | scope nested => exact follow_rename injective name line nested

end Scope

theorem simulation_rename (injective : Function.Injective naming) (program : List Statement) :
    Simulation naming program fun scope other => other = scope.rename naming where
  resolve := by
    rintro scope _ name line rfl _
    exact scope.resolve_rename injective name line
  contains := by
    rintro scope _ name rfl _
    exact scope.contains_rename injective name
  declare := by
    rintro scope _ name value rfl _
    exact scope.bind_rename injective name (.value value)

theorem Machine.related_rename_iff {machine other : Machine} :
    machine.Related (fun scope other => other = scope.rename naming) other ↔
      other = machine.rename naming := by
  constructor
  · rintro ⟨scope, console, events⟩
    obtain ⟨otherScope, otherConsole, otherEvents⟩ := other
    obtain ⟨rfl, rfl, rfl⟩ : otherScope = _ ∧ otherConsole = _ ∧ otherEvents = _ :=
      ⟨scope, console, events⟩
    rfl
  · rintro rfl
    exact ⟨rfl, rfl, rfl⟩

theorem Outcome.eq_rename_of_related {outcome other : Outcome}
    (alike : Outcome.Related (Error.rename naming) (fun scope other => other = scope.rename naming)
      outcome other) : other = outcome.rename naming := by
  cases alike with
  | finished isRelated => rw [rename, Machine.related_rename_iff.mp isRelated]
  | failed isRelated => rw [rename, Machine.related_rename_iff.mp isRelated]
  | unfinished => rfl

/-- A program under other names, from the scope under the same other names, ends as the program
does, with the names in the scope and in the error replaced; and it ends if the program does. -/
theorem executeBlock_rename (injective : Function.Injective naming) (program : List Statement)
    (machine : Machine) :
    (∀ fuel, executeBlock fuel (program.map (Statement.rename naming)) (machine.rename naming) =
      (executeBlock fuel program machine).rename naming) ∧
    ((∃ fuel, executeBlock fuel (program.map (Statement.rename naming)) (machine.rename naming) ≠
        .unfinished) ↔
      ∃ fuel, executeBlock fuel program machine ≠ .unfinished) := by
  have inStep (fuel : Nat) := (simulation_rename injective program).executeBlock fuel
    (Machine.related_rename_iff.mpr (Eq.refl (machine.rename naming)))
  exact ⟨fun fuel => Outcome.eq_rename_of_related (inStep fuel),
    exists_congr fun fuel => not_congr (inStep fuel).unfinished_iff.symm⟩

theorem executeBlock_rename_nested :
    let naming : String → String := ("v" ++ ·)
    let program : List Statement :=
      [.print (.reference "n" 1) 1, .declare "x" (.reference "n" 2) 2,
        .assign "y" (.reference "x" 3) 3]
    let machine : Machine :=
      { scope := .withScope "n" (.within (.withValue "n" (.number 2) .outermost)) .outermost }
    Function.Injective naming ∧
      (executeBlock 2 program machine).error? =
        some { line := 3, fault := .unknownVariable "y" } ∧
      executeBlock 2 (program.map (Statement.rename naming)) (machine.rename naming) =
        (executeBlock 2 program machine).rename naming ∧
      ((executeBlock 2 program machine).rename naming).error? =
        some { line := 3, fault := .unknownVariable "vy" } := by
  intro naming program machine
  have injective : Function.Injective naming := fun first second same => by
    simpa [naming] using same
  exact ⟨injective, by decide +kernel, (executeBlock_rename injective program machine).1 2,
    by decide +kernel⟩

end WhileLang
