import WhileLang.Proofs.Execution.Frame
import WhileLang.Proofs.Names

/-!
Two runs in step. A program reads its scope only by the names that it mentions, so a run of the
program and a run of the program under other names keep in step from scopes that are related, if
the relation answers for three operations: reading a name, asking whether it is bound, and binding
it. Everything else follows from these, through expressions, branches and loops.
-/

namespace WhileLang

/-- What a relation between scopes has to answer for, so that a program cannot tell them apart. -/
structure Simulation (naming : String → String) (program : List Statement)
    (related : Scope → Scope → Prop) : Prop where
  resolve : ∀ {scope other name line}, related scope other →
    (Expression.reference name line).OccursIn program →
    other.resolve (naming name) line = (scope.resolve name line).mapError (Error.rename naming)
  contains : ∀ {scope other name}, related scope other → Assigns program name →
    other.contains (naming name) = scope.contains name
  declare : ∀ {scope other name} (value : Value), related scope other →
    Declares program name ∨ Assigns program name →
    related (scope.declare name value) (other.declare (naming name) value)

structure Machine.Related (related : Scope → Scope → Prop) (machine other : Machine) : Prop where
  scope : related machine.scope other.scope
  console : other.console = machine.console
  events : other.events = machine.events

/-- Runs that end alike, the error of the second being what `report` makes of the first one's. -/
inductive Outcome.Related (report : Error → Error) (related : Scope → Scope → Prop) :
    Outcome → Outcome → Prop
  | finished {machine other : Machine} : machine.Related related other →
      Related report related (.finished machine) (.finished other)
  | failed {error machine other} : Machine.Related related machine other →
      Related report related (.failed error machine) (.failed (report error) other)
  | unfinished : Related report related .unfinished .unfinished

section

variable {naming : String → String} {program : List Statement} {related : Scope → Scope → Prop}

theorem Machine.Related.record {machine other : Machine} (isRelated : machine.Related related other)
    (event : Event) : (machine.record event).Related related (other.record event) where
  scope := isRelated.scope
  console := isRelated.console
  events := congrArg (Array.push · event) isRelated.events

theorem Machine.Related.withScope {machine other : Machine} {scope otherScope : Scope}
    (isRelated : machine.Related related other) (scopes : related scope otherScope) :
    Machine.Related related { machine with scope } { other with scope := otherScope } where
  scope := scopes
  console := isRelated.console
  events := isRelated.events

theorem Machine.Related.withConsole {machine other : Machine} (console : Console)
    (isRelated : machine.Related related other) :
    Machine.Related related { machine with console } { other with console } where
  scope := isRelated.scope
  console := rfl
  events := isRelated.events

theorem mapError_ok {α : Type} {report : Error → Error} {value : α} :
    (Except.ok value).mapError report = .ok value := rfl

theorem mapError_bind {α β : Type} {report : Error → Error} {first : Except Error α}
    {next other : α → Except Error β} (same : ∀ value, other value = (next value).mapError report) :
    (first.mapError report >>= other) = (first >>= next).mapError report := by
  cases first with
  | error error => rfl
  | ok value => exact same value

theorem Operator.apply_rename (op : Operator) (line : Nat) (left right : Value) :
    op.apply line left right = (op.apply line left right).mapError (Error.rename naming) := by
  cases op <;> cases left <;> cases right <;> rfl

namespace Simulation

variable (simulation : Simulation naming program related) {scope other : Scope}
  {machine otherMachine : Machine}

include simulation

theorem evaluate_eq (isRelated : related scope other) {expression : Expression}
    (inside : ∀ part : Expression, part.Occurs expression → part.OccursIn program) :
    evaluate other (expression.rename naming) =
      (evaluate scope expression).mapError (Error.rename naming) := by
  induction expression with
  | literal value line => rfl
  | reference name line => exact simulation.resolve isRelated (inside _ .here)
  | binary op left right line leftIh rightIh =>
      simp only [Expression.rename, evaluate]
      rw [leftIh fun part occurs => inside part (.left occurs)]
      apply mapError_bind
      intro leftValue
      rw [rightIh fun part occurs => inside part (.right occurs)]
      apply mapError_bind
      intro rightValue
      exact op.apply_rename line leftValue rightValue

theorem evaluate_statement (isRelated : related scope other) {statement : Statement}
    (occurs : statement.Occurs program) :
    evaluate other (statement.expression.rename naming) =
      (evaluate scope statement.expression).mapError (Error.rename naming) :=
  simulation.evaluate_eq isRelated fun _ inside => ⟨statement, occurs, inside⟩

theorem test_statement (isRelated : related scope other) {statement : Statement}
    (occurs : statement.Occurs program) (line : Nat) :
    test other (statement.expression.rename naming) line =
      (test scope statement.expression line).mapError (Error.rename naming) := by
  simp only [test]
  rw [simulation.evaluate_statement isRelated occurs]
  apply mapError_bind
  intro value
  cases value <;> rfl

end Simulation

def InStep (naming : String → String) (program : List Statement)
    (related : Scope → Scope → Prop) (step : Statement → Machine → Outcome) : Prop :=
  ∀ statement : Statement, statement.Occurs program →
    ∀ machine other : Machine, machine.Related related other →
      Outcome.Related (Error.rename naming) related (step statement machine)
        (step (statement.rename naming) other)

theorem InStep.executeAll {step : Statement → Machine → Outcome}
    (inStep : InStep naming program related step) {statements : List Statement}
    (occur : ∀ statement ∈ statements, statement.Occurs program) {machine other : Machine}
    (isRelated : machine.Related related other) :
    Outcome.Related (Error.rename naming) related (executeAll step statements machine)
      (executeAll step (statements.map (Statement.rename naming)) other) := by
  induction statements generalizing machine other with
  | nil => exact .finished isRelated
  | cons first rest ih =>
      obtain ⟨firstOccurs, restOccur⟩ := List.forall_mem_cons.mp occur
      have firstAlike := inStep first firstOccurs machine other isRelated
      rw [List.map_cons, WhileLang.executeAll, WhileLang.executeAll]
      generalize step first machine = outcome at firstAlike ⊢
      generalize step (first.rename naming) other = otherOutcome at firstAlike ⊢
      cases firstAlike with
      | finished nextRelated => exact ih restOccur nextRelated
      | failed lastRelated => exact .failed lastRelated
      | unfinished => exact .unfinished

theorem Simulation.iterate (simulation : Simulation naming program related)
    {condition : Expression} {body : List Statement} {line : Nat}
    (occurs : (Statement.loop condition body line).Occurs program)
    {run otherRun : Machine → Outcome}
    (bodyInStep : ∀ machine other : Machine, machine.Related related other →
      Outcome.Related (Error.rename naming) related (run machine) (otherRun other))
    (fuel count : Nat) {machine other : Machine} (isRelated : machine.Related related other) :
    Outcome.Related (Error.rename naming) related
      (iterate condition run line fuel count machine)
      (iterate (condition.rename naming) otherRun line fuel count other) := by
  induction fuel generalizing count machine other with
  | zero => exact .unfinished
  | succ fuel ih =>
      rw [WhileLang.iterate, WhileLang.iterate]
      have tested := simulation.test_statement isRelated.scope occurs line
      rw [Statement.expression] at tested
      rw [tested]
      cases test machine.scope condition line with
      | error error => exact .failed isRelated
      | ok holds =>
          cases holds with
          | false => exact .finished (isRelated.record _)
          | true =>
              have once := bodyInStep machine other isRelated
              simp only [mapError_ok]
              generalize run machine = outcome at once ⊢
              generalize otherRun other = otherOutcome at once ⊢
              cases once with
              | finished nextRelated => exact ih (count + 1) nextRelated
              | failed lastRelated => exact .failed lastRelated
              | unfinished => exact .unfinished

theorem Simulation.perform (simulation : Simulation naming program related) (fuel : Nat)
    {step : Statement → Machine → Outcome} (inStep : InStep naming program related step) :
    InStep naming program related (perform fuel step) := by
  intro statement occurs machine other isRelated
  have evaluated := simulation.evaluate_statement isRelated.scope occurs
  have tested := simulation.test_statement isRelated.scope occurs
  cases statement with
  | declare name value line =>
      simp only [Statement.rename, WhileLang.perform]
      rw [Statement.expression] at evaluated
      rw [evaluated]
      cases evaluate machine.scope value with
      | error error => exact .failed isRelated
      | ok value =>
          have target : Declares program name ∨ Assigns program name := .inl ⟨_, _, occurs⟩
          exact .finished
            (isRelated.withScope (simulation.declare value isRelated.scope target))
  | assign name value line =>
      have assigned : Assigns program name := ⟨_, _, occurs⟩
      simp only [Statement.rename, WhileLang.perform]
      rw [Statement.expression] at evaluated
      rw [simulation.contains isRelated.scope assigned, evaluated]
      by_cases bound : machine.scope.contains name = true
      · rw [if_pos bound, if_pos bound]
        cases evaluate machine.scope value with
        | error error => exact .failed isRelated
        | ok value =>
            exact .finished
              (isRelated.withScope (simulation.declare value isRelated.scope (.inr assigned)))
      · rw [if_neg bound, if_neg bound]
        exact .failed isRelated
  | branch condition whenTrue whenFalse line =>
      simp only [Statement.rename, WhileLang.perform, Statement.renameAll_eq_map]
      rw [Statement.expression] at tested
      rw [tested]
      cases test machine.scope condition line with
      | error error => exact .failed isRelated
      | ok holds =>
          cases holds with
          | true =>
              exact inStep.executeAll (fun _ inside => occurs.inside (.inl inside)) isRelated
          | false =>
              exact inStep.executeAll (fun _ inside => occurs.inside (.inr inside)) isRelated
  | loop condition body line =>
      simp only [Statement.rename, WhileLang.perform, Statement.renameAll_eq_map]
      refine simulation.iterate occurs ?_ fuel 0 isRelated
      intro machine other isRelated
      exact inStep.executeAll (fun _ inside => occurs.inside (.inl inside)) isRelated
  | print value line =>
      simp only [Statement.rename, WhileLang.perform, isRelated.console]
      rw [Statement.expression] at evaluated
      rw [evaluated]
      cases evaluate machine.scope value with
      | error error => exact .failed isRelated
      | ok value =>
          simp only [mapError_ok]
          cases machine.console.write? value.text with
          | none => exact .failed isRelated
          | some console => exact .finished (isRelated.withConsole console)

theorem Simulation.execute (simulation : Simulation naming program related) (fuel : Nat) :
    InStep naming program related (execute fuel) := by
  induction fuel with
  | zero => exact fun _ _ _ _ _ => .unfinished
  | succ fuel ih =>
      intro statement occurs machine other isRelated
      rw [WhileLang.execute, WhileLang.execute, Statement.line_rename]
      exact simulation.perform fuel ih statement occurs _ _ (isRelated.record _)

theorem Simulation.executeBlock (simulation : Simulation naming program related) (fuel : Nat)
    {machine other : Machine} (isRelated : machine.Related related other) :
    Outcome.Related (Error.rename naming) related (executeBlock fuel program machine)
      (executeBlock fuel (program.map (Statement.rename naming)) other) :=
  (simulation.execute fuel).executeAll (fun _ => .here) isRelated

theorem Outcome.Related.unfinished_iff {report : Error → Error} {outcome other : Outcome}
    (alike : Outcome.Related report related outcome other) :
    outcome = .unfinished ↔ other = .unfinished := by
  cases alike <;> simp

end

end WhileLang
