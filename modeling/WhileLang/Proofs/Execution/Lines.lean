import WhileLang.Program
import WhileLang.Proofs.Lines
import WhileLang.Proofs.Scope

/-!
A run reads lines only to put them into errors and events. So a program on other lines runs in step
with the program, through every loop and with the same fuel: with the same values, the same scope
and the same printed lines.
-/

namespace WhileLang

variable {place : Nat → Nat}

theorem Scope.follow_move (name : String) (line : Nat) (nested : Scope) :
    nested.follow name (place line) = moveResult place id (nested.follow name line) := by
  fun_induction follow name line nested with
  | case1 nested noParent =>
      rw [follow_of_no_parent noParent]
      rfl
  | case2 nested parent hasParent missing =>
      rw [follow_of_parent hasParent, missing]
      rfl
  | case3 nested parent hasParent value found =>
      rw [follow_of_parent hasParent, found]
      rfl
  | case4 nested parent hasParent inner found ih =>
      rw [follow_of_parent hasParent, found]
      exact ih

theorem Scope.resolve_move (name : String) (line : Nat) (scope : Scope) :
    scope.resolve name (place line) = moveResult place id (scope.resolve name line) := by
  simp only [resolve]
  cases scope.get? name with
  | none => rfl
  | some binding =>
      cases binding with
      | value value => rfl
      | scope nested => exact follow_move name line nested

theorem Operator.apply_move (op : Operator) (line : Nat) (left right : Value) :
    op.apply (place line) left right = moveResult place id (op.apply line left right) := by
  cases op <;> cases left <;> cases right <;> rfl

theorem evaluate_move (scope : Scope) (expression : Expression) :
    evaluate scope (expression.move place) = moveResult place id (evaluate scope expression) := by
  induction expression with
  | literal value line => rfl
  | reference name line => exact scope.resolve_move name line
  | binary op left right line leftIh rightIh =>
      simp only [Expression.move, evaluate]
      rw [leftIh]
      apply moveResult_bind
      intro leftValue
      rw [rightIh]
      apply moveResult_bind
      intro rightValue
      exact op.apply_move line leftValue rightValue

theorem test_move (scope : Scope) (condition : Expression) (line : Nat) :
    test scope (condition.move place) (place line) =
      moveResult place id (test scope condition line) := by
  simp only [test]
  rw [evaluate_move]
  apply moveResult_bind
  intro value
  cases value <;> rfl

@[simp] theorem Machine.scope_move (machine : Machine) :
    (machine.move place).scope = machine.scope := rfl

@[simp] theorem Machine.console_move (machine : Machine) :
    (machine.move place).console = machine.console := rfl

theorem Machine.record_move (machine : Machine) (event : Event) :
    (machine.move place).record (event.move place) = (machine.record event).move place := by
  simp [record, move]

def StepMoves (place : Nat → Nat) (step : Statement → Machine → Outcome) : Prop :=
  ∀ statement machine,
    step (statement.move place) (machine.move place) = (step statement machine).move place

theorem executeAll_move {step : Statement → Machine → Outcome} (stepMoves : StepMoves place step)
    (statements : List Statement) (machine : Machine) :
    executeAll step (statements.map (Statement.move place)) (machine.move place) =
      (executeAll step statements machine).move place := by
  induction statements generalizing machine with
  | nil => rfl
  | cons first rest ih =>
      simp only [List.map_cons, executeAll]
      rw [stepMoves]
      cases step first machine with
      | finished next => exact ih next
      | failed error next => rfl
      | unfinished => rfl

theorem iterate_move {condition : Expression} {body movedBody : Machine → Outcome} {line : Nat}
    (bodyMoves : ∀ machine, movedBody (machine.move place) = (body machine).move place)
    (fuel count : Nat) (machine : Machine) :
    iterate (condition.move place) movedBody (place line) fuel count (machine.move place) =
      (iterate condition body line fuel count machine).move place := by
  induction fuel generalizing count machine with
  | zero => rfl
  | succ fuel ih =>
      simp only [iterate, Machine.scope_move]
      rw [test_move]
      cases test machine.scope condition line with
      | error error => rfl
      | ok holds =>
          cases holds with
          | false =>
              exact congrArg Outcome.finished (machine.record_move (.loopFinished line count))
          | true =>
              simp only [moveResult, id]
              rw [bodyMoves]
              cases body machine with
              | finished next => exact ih (count + 1) next
              | failed error next => rfl
              | unfinished => rfl

theorem perform_move {step : Statement → Machine → Outcome} (stepMoves : StepMoves place step)
    (fuel : Nat) : StepMoves place (perform fuel step) := by
  intro statement machine
  cases statement with
  | declare name value line =>
      simp only [Statement.move, perform, Machine.scope_move]
      rw [evaluate_move]
      cases evaluate machine.scope value <;> rfl
  | assign name value line =>
      simp only [Statement.move, perform, Machine.scope_move]
      by_cases bound : machine.scope.contains name
      · simp only [bound, if_true]
        rw [evaluate_move]
        cases evaluate machine.scope value <;> rfl
      · simp only [bound, Bool.false_eq_true, if_false]
        rfl
  | branch condition whenTrue whenFalse line =>
      simp only [Statement.move, perform, Machine.scope_move, Statement.moveAll_eq_map]
      rw [test_move]
      cases test machine.scope condition line with
      | error error => rfl
      | ok holds =>
          cases holds with
          | true => exact executeAll_move stepMoves whenTrue machine
          | false => exact executeAll_move stepMoves whenFalse machine
  | loop condition body line =>
      simp only [Statement.move, perform, Statement.moveAll_eq_map]
      exact iterate_move (executeAll_move stepMoves body) fuel 0 machine
  | print value line =>
      simp only [Statement.move, perform, Machine.scope_move, Machine.console_move]
      rw [evaluate_move]
      cases evaluate machine.scope value with
      | error error => rfl
      | ok value =>
          simp only [moveResult, id]
          cases machine.console.write? value.text <;> rfl

theorem execute_move (fuel : Nat) : StepMoves place (execute fuel) := by
  induction fuel with
  | zero => exact fun statement machine => rfl
  | succ fuel ih =>
      intro statement machine
      simp only [execute, Statement.line_move]
      rw [← perform_move ih, ← Machine.record_move]
      rfl

theorem runProgram_move (fuel : Nat) (program : List Statement) (console : Console) :
    runProgram fuel (program.map (Statement.move place)) console =
      (runProgram fuel program console).move place := by
  have start : ({ console, events := #[.programStarted program.length] } : Machine) =
      Machine.move place { console, events := #[.programStarted program.length] } := by
    simp [Machine.move, Event.move]
  simp only [runProgram, List.length_map, executeBlock]
  rw [start, executeAll_move (execute_move fuel), ← start]
  cases executeAll (execute fuel) program _ with
  | finished machine =>
      exact congrArg Outcome.finished (machine.record_move (.programFinished machine.scope.size))
  | failed error machine => rfl
  | unfinished => rfl

end WhileLang
