import WhileLang.Proofs.Execution.Simulation
import WhileLang.Proofs.Scope.Sameness

/-!
A run depends on its scope only through the bindings of the names that the program mentions. From
scopes that agree on those, whatever else they bind and whatever parent they have, a program prints
and records the same and ends in the same way, and the scopes agree on those names again.
-/

namespace WhileLang

def Mentions (program : List Statement) (name : String) : Prop :=
  (∃ line, (Expression.reference name line).OccursIn program) ∨
    Declares program name ∨ Assigns program name

def AgreeOn (program : List Statement) (scope other : Scope) : Prop :=
  ∀ name, Mentions program name → SameBinding (scope.get? name) (other.get? name)

variable {program : List Statement}

theorem AgreeOn.declare {scope other : Scope} (agree : AgreeOn program scope other) (name : String)
    (value : Value) : AgreeOn program (scope.declare name value) (other.declare name value) := by
  intro mentioned isMentioned
  rw [Scope.declare, Scope.declare, Scope.get?_bind, Scope.get?_bind]
  split
  · exact .value value
  · exact agree mentioned isMentioned

theorem mapError_rename_id {α : Type} (result : Except Error α) :
    result.mapError (Error.rename id) = result := by
  rw [Error.rename_id]
  cases result <;> rfl

theorem simulation_agreeOn (program : List Statement) :
    Simulation id program (AgreeOn program) where
  resolve {scope other name line} agree occurs := by
    rw [mapError_rename_id]
    exact (agree name (.inl ⟨line, occurs⟩)).resolve_eq line
  contains {scope other name} agree assigned := (agree name (.inr (.inr assigned))).isSome_eq
  declare {scope other name} value agree _ := agree.declare name value

/-- From scopes that bind the names of a program alike the program ends in the same way: it prints
and records the same, gives the same error if any, and the scopes that it leaves bind its names
alike. It ends from one of them if it ends from the other. -/
theorem executeBlock_agreeOn {scope other : Scope} (agree : AgreeOn program scope other)
    (console : Console) (events : Array Event) :
    (∀ fuel, Outcome.Related id (AgreeOn program)
      (executeBlock fuel program { scope, console, events })
      (executeBlock fuel program { scope := other, console, events })) ∧
    ((∃ fuel, executeBlock fuel program { scope, console, events } ≠ .unfinished) ↔
      ∃ fuel, executeBlock fuel program { scope := other, console, events } ≠ .unfinished) := by
  have alike (fuel : Nat) : Outcome.Related id (AgreeOn program)
      (executeBlock fuel program { scope, console, events })
      (executeBlock fuel program { scope := other, console, events }) := by
    have isRelated : Machine.Related (AgreeOn program) { scope, console, events }
        { scope := other, console, events } := ⟨agree, rfl, rfl⟩
    have inStep := (simulation_agreeOn program).executeBlock fuel isRelated
    rwa [Error.rename_id, ← Statement.renameAll_eq_map, Statement.renameAll_id] at inStep
  exact ⟨alike, exists_congr fun fuel => not_congr (alike fuel).unfinished_iff⟩

theorem Statement.Occurs.not_nil {statement : Statement} : ¬ statement.Occurs [] := by
  rintro (isMember | ⟨isMember, _⟩ | ⟨isMember, _⟩) <;> cases isMember

theorem Statement.Occurs.eq_of_simple {statement outer : Statement}
    (occurs : statement.Occurs [outer]) (simple : outer.isSimple = true) : statement = outer := by
  have noParts : outer.body = [] ∧ outer.otherwise = [] := by
    cases outer with
    | declare | assign | print => exact ⟨rfl, rfl⟩
    | branch | loop => cases simple
  cases occurs with
  | here isMember => exact List.mem_singleton.mp isMember
  | body isMember inside =>
      rw [List.mem_singleton.mp isMember, noParts.1] at inside
      exact absurd inside not_nil
  | otherwise isMember inside =>
      rw [List.mem_singleton.mp isMember, noParts.2] at inside
      exact absurd inside not_nil

/-- The scopes differ in the order in which `x` was given its nested scope's names, in a name that
the program does not mention, and in their parents. -/
theorem executeBlock_agreeOn_nested :
    ∃ program scope other,
      AgreeOn program scope other ∧ scope.get? "z" ≠ other.get? "z" ∧
      scope.parent? ≠ other.parent? ∧
      (executeBlock 2 program { scope }).machine?.map (·.console.lines.toList) = some ["1"] ∧
      Outcome.Related id (AgreeOn program) (executeBlock 2 program { scope })
        (executeBlock 2 program { scope := other }) := by
  let parent : Scope := .withValue "x" (.number 1) .outermost
  let nested : Scope := .withValue "a" (.number 0) (.withValue "b" (.number 2) (.within parent))
  let swapped : Scope := .withValue "b" (.number 2) (.withValue "a" (.number 0) (.within parent))
  let scope : Scope := .withScope "x" nested .outermost
  let other : Scope := .withValue "z" (.number 3) (.withScope "x" swapped (.within parent))
  have same : SameBinding (some (.scope nested)) (some (.scope swapped)) := by
    refine .scope (fun name => ?_) (.scope_refl parent)
    by_cases isA : "a" = name
    · subst isA
      exact .value (.number 0)
    · by_cases isB : "b" = name
      · subst isB
        exact .value (.number 2)
      · simp only [nested, swapped, Scope.get?, if_neg isA, if_neg isB]
        exact .unbound
  have agree : AgreeOn [.print (.reference "x" 1) 1] scope other := by
    rintro name (⟨line, statement, occurs, inside⟩ | ⟨value, line, occurs⟩ | ⟨value, line, occurs⟩)
    · obtain rfl := occurs.eq_of_simple rfl
      cases inside
      exact same
    · cases occurs.eq_of_simple rfl
    · cases occurs.eq_of_simple rfl
  exact ⟨_, scope, other, agree, by decide, by decide, by decide +kernel,
    (executeBlock_agreeOn agree {} #[]).1 2⟩

end WhileLang
