import WhileLang.Proofs.Evaluation.Kinds
import WhileLang.Proofs.Execution.Frame

/-!
Where the errors of a run come from. Every error carries the line of the node of the program that
gave rise to it, and a program, the scope of which is plain at every moment, meets no name that is
bound to a scope.
-/

namespace WhileLang

open Parse (bind_eq_error_iff)

/-- The errors that a program can end with, each with the place in the program that it points at. -/
inductive Cause (program : List Statement) : Error → Prop
  | reference {name line} : (Expression.reference name line).OccursIn program →
      Cause program { line, fault := .unknownVariable name }
  | assignment {name value line} : (Statement.assign name value line).Occurs program →
      Cause program { line, fault := .unknownVariable name }
  | operands {op left right line leftKind rightKind} :
      (Expression.binary op left right line).OccursIn program →
      op.result? leftKind rightKind = none →
      Cause program { line, fault := .operandKinds op leftKind rightKind }
  | condition {statement : Statement} : statement.Occurs program → statement.isSimple = false →
      Cause program { line := statement.line, fault := .conditionKind .number }
  | output {value line} : (Statement.print value line).Occurs program →
      Cause program { line, fault := .outputClosed }

variable {program : List Statement} {scope : Scope} {error : Error}

theorem Operator.apply_eq_error {op : Operator} {line : Nat} {left right : Value}
    (failed : op.apply line left right = .error error) :
    op.result? left.kind right.kind = none ∧
      error = { line, fault := .operandKinds op left.kind right.kind } := by
  have kinds := op.kind_apply line left right
  rw [failed] at kinds
  cases isResult : op.result? left.kind right.kind with
  | none =>
      rw [isResult] at kinds
      exact ⟨rfl, Except.error.inj kinds⟩
  | some kind =>
      rw [isResult] at kinds
      cases kinds

theorem Scope.Plain.resolve_eq_error (plain : scope.Plain) {name : String} {line : Nat}
    (failed : scope.resolve name line = .error error) :
    error = { line, fault := .unknownVariable name } := by
  rw [resolve] at failed
  split at failed
  · exact (Except.error.inj failed).symm
  · cases failed
  · rename_i nested found
    obtain ⟨value, isValue⟩ := plain.2 _ (mem_entries_of_get? found)
    cases isValue

theorem evaluate_cause (plain : scope.Plain) {expression : Expression}
    (failed : evaluate scope expression = .error error)
    (inside : ∀ part : Expression, part.Occurs expression → part.OccursIn program) :
    Cause program error := by
  induction expression with
  | literal value line => cases failed
  | reference name line =>
      obtain rfl := plain.resolve_eq_error failed
      exact .reference (inside _ .here)
  | binary op left right line leftIh rightIh =>
      rw [evaluate] at failed
      rcases bind_eq_error_iff.mp failed with leftFailed | ⟨leftValue, _, failed⟩
      · exact leftIh leftFailed fun part occurs => inside part (.left occurs)
      rcases bind_eq_error_iff.mp failed with rightFailed | ⟨rightValue, _, applied⟩
      · exact rightIh rightFailed fun part occurs => inside part (.right occurs)
      obtain ⟨rejected, rfl⟩ := Operator.apply_eq_error applied
      exact .operands (inside _ .here) rejected

theorem Statement.Occurs.evaluate_cause {statement : Statement}
    (occurs : statement.Occurs program) (plain : scope.Plain)
    (failed : evaluate scope statement.expression = .error error) : Cause program error :=
  WhileLang.evaluate_cause plain failed fun _ inside => ⟨statement, occurs, inside⟩

theorem Statement.Occurs.effect_cause {statement : Statement} {machine : Machine}
    (occurs : statement.Occurs program) (plain : machine.scope.Plain)
    (failed : statement.effect machine = .error error) : Cause program error := by
  cases statement with
  | declare name value line =>
      rcases bind_eq_error_iff.mp failed with evaluated | ⟨result, _, isNext⟩
      · exact occurs.evaluate_cause plain evaluated
      · cases isNext
  | assign name value line =>
      rw [effect] at failed
      split at failed
      · rcases bind_eq_error_iff.mp failed with evaluated | ⟨result, _, isNext⟩
        · exact occurs.evaluate_cause plain evaluated
        · cases isNext
      · obtain rfl := Except.error.inj failed
        exact .assignment occurs
  | print value line =>
      rcases bind_eq_error_iff.mp failed with evaluated | ⟨result, _, isNext⟩
      · exact occurs.evaluate_cause plain evaluated
      · split at isNext
        · cases isNext
        · obtain rfl := Except.error.inj isNext
          exact .output occurs
  | branch condition whenTrue whenFalse line => cases failed
  | loop condition body line => cases failed

theorem Statement.Occurs.test_cause {statement : Statement} (occurs : statement.Occurs program)
    (notSimple : statement.isSimple = false) (plain : scope.Plain)
    (failed : test scope statement.expression statement.line = .error error) :
    Cause program error := by
  rw [test] at failed
  rcases bind_eq_error_iff.mp failed with evaluated | ⟨value, _, checked⟩
  · exact occurs.evaluate_cause plain evaluated
  · cases value with
    | number value =>
        obtain rfl := Except.error.inj checked
        exact .condition occurs notSimple
    | boolean value => cases checked

theorem Fails.cause {machine : Machine} (fails : Fails program machine error)
    (plain : machine.scope.Plain) : Cause program error := by
  obtain ⟨statement, occurs, failed⟩ := fails
  cases simple : statement.isSimple with
  | true =>
      rw [simple, if_pos rfl] at failed
      exact occurs.effect_cause plain failed
  | false =>
      rw [simple, if_neg Bool.false_ne_true] at failed
      exact occurs.test_cause simple plain failed

theorem Outcome.exists_machine {outcome : Outcome} (failed : outcome.error? = some error) :
    ∃ machine, outcome.machine? = some machine := by
  cases outcome with
  | failed other machine => exact ⟨machine, rfl⟩
  | finished | unfinished => cases failed

/-- An error that a program ends with names its cause and carries the cause's line: a name that is
read or assigned, an operator with operand kinds that it does not take, a condition that is a
number, or a print statement. None is about a name that is bound to a scope. -/
theorem runProgram_cause {fuel : Nat} {console : Console}
    (failed : (runProgram fuel program console).error? = some error) :
    Cause program error ∧ ∀ name, error.fault ≠ .notAValue name := by
  rw [runProgram_error?] at failed
  obtain ⟨final, ended⟩ := Outcome.exists_machine failed
  have fails := (executeBlock_accounted ended).2 error failed
  have cause := fails.cause (executeBlock_plain ended)
  refine ⟨cause, ?_⟩
  cases cause <;> exact nofun

theorem runProgram_cause_counting :
    (runProgram 4 counting {}).error? = some { line := 5, fault := .unknownVariable "y" } ∧
      Cause counting { line := 5, fault := .unknownVariable "y" } ∧
      (runProgram 4 counting { capacity := some 1 }).error? =
        some { line := 3, fault := .outputClosed } ∧
      Cause counting { line := 3, fault := .outputClosed } := by
  have unbound : (runProgram 4 counting {}).error? =
      some { line := 5, fault := .unknownVariable "y" } := by decide +kernel
  have refused : (runProgram 4 counting { capacity := some 1 }).error? =
      some { line := 3, fault := .outputClosed } := by decide +kernel
  exact ⟨unbound, (runProgram_cause unbound).1, refused, (runProgram_cause refused).1⟩

end WhileLang
