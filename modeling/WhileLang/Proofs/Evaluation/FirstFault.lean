import WhileLang.Evaluation
import WhileLang.Proofs.Occurrence
import WhileLang.Proofs.Parse.Outcome

/-!
Evaluation is strict: an expression has a value exactly if all of its parts do, also behind a
logical operator whose left operand already settles the result. Where several parts are at fault,
the first one in the order of evaluation is reported.
-/

namespace WhileLang

open Parse (bind_eq_ok_iff bind_eq_error_iff)

namespace Expression

def operands : Expression → List Expression
  | binary _ left right _ => [left, right]
  | _ => []

/-- The nodes of an expression in the order of evaluation, each behind its operands. -/
def nodes : Expression → List Expression
  | binary op left right line => left.nodes ++ right.nodes ++ [binary op left right line]
  | leaf => [leaf]

theorem mem_nodes_iff {part whole : Expression} : part ∈ whole.nodes ↔ part.Occurs whole := by
  constructor
  · intro isMember
    induction whole with
    | literal value line | reference name line =>
        rw [List.mem_singleton.mp isMember]
        exact .here
    | binary op left right line leftIh rightIh =>
        simp only [nodes, List.mem_append, List.mem_singleton] at isMember
        rcases isMember with (inLeft | inRight) | rfl
        · exact .left (leftIh inLeft)
        · exact .right (rightIh inRight)
        · exact .here
  · intro occurs
    induction occurs with
    | here => cases part <;> simp [nodes]
    | left _ ih | right _ ih => simp [nodes, ih]

end Expression

variable {scope : Scope} {expression : Expression} {value : Value} {error : Error}

def hasValue (scope : Scope) (expression : Expression) : Bool :=
  match evaluate scope expression with
  | .ok _ => true
  | .error _ => false

def faulty (scope : Scope) (node : Expression) : Bool :=
  !hasValue scope node && node.operands.all (hasValue scope)

theorem hasValue_iff :
    hasValue scope expression = true ↔ ∃ value, evaluate scope expression = .ok value := by
  rw [hasValue]
  cases evaluate scope expression <;> simp

theorem hasValue_of_ok (evaluated : evaluate scope expression = .ok value) :
    hasValue scope expression = true :=
  hasValue_iff.mpr ⟨value, evaluated⟩

theorem hasValue_of_error (failed : evaluate scope expression = .error error) :
    hasValue scope expression = false := by
  rw [hasValue, failed]

theorem hasValue_part {part : Expression} (occurs : part.Occurs expression)
    (succeeds : hasValue scope expression = true) : hasValue scope part = true := by
  induction occurs with
  | here => exact succeeds
  | left _ ih =>
      obtain ⟨value, evaluated⟩ := hasValue_iff.mp succeeds
      obtain ⟨leftValue, leftEvaluated, _⟩ := bind_eq_ok_iff.mp evaluated
      exact ih (hasValue_of_ok leftEvaluated)
  | right _ ih =>
      obtain ⟨value, evaluated⟩ := hasValue_iff.mp succeeds
      obtain ⟨_, _, evaluated⟩ := bind_eq_ok_iff.mp evaluated
      obtain ⟨rightValue, rightEvaluated, _⟩ := bind_eq_ok_iff.mp evaluated
      exact ih (hasValue_of_ok rightEvaluated)

theorem find?_faulty_of_ok (evaluated : evaluate scope expression = .ok value) :
    expression.nodes.find? (faulty scope) = none := by
  rw [List.find?_eq_none]
  intro node isNode
  have succeeds := hasValue_part (Expression.mem_nodes_iff.mp isNode) (hasValue_of_ok evaluated)
  simp [faulty, succeeds]

theorem find?_faulty_of_error (failed : evaluate scope expression = .error error) :
    ∃ node, expression.nodes.find? (faulty scope) = some node ∧
      evaluate scope node = .error error := by
  induction expression with
  | literal value line => cases failed
  | reference name line =>
      refine ⟨_, ?_, failed⟩
      simp [Expression.nodes, faulty, Expression.operands, hasValue_of_error failed]
  | binary op left right line leftIh rightIh =>
      have evaluation := failed
      simp only [Expression.nodes, List.find?_append]
      rcases bind_eq_error_iff.mp evaluation with leftFailed | ⟨_, leftEvaluated, evaluation⟩
      · obtain ⟨node, isFirst, nodeFailed⟩ := leftIh leftFailed
        exact ⟨node, by rw [isFirst, Option.some_or, Option.some_or], nodeFailed⟩
      rw [find?_faulty_of_ok leftEvaluated, Option.none_or]
      rcases bind_eq_error_iff.mp evaluation with rightFailed | ⟨_, rightEvaluated, _⟩
      · obtain ⟨node, isFirst, nodeFailed⟩ := rightIh rightFailed
        exact ⟨node, by rw [isFirst, Option.some_or], nodeFailed⟩
      rw [find?_faulty_of_ok rightEvaluated, Option.none_or]
      refine ⟨_, ?_, failed⟩
      simp [faulty, Expression.operands, hasValue_of_error failed, hasValue_of_ok leftEvaluated,
        hasValue_of_ok rightEvaluated]

/-- An expression has a value exactly if all of its parts have one; if it fails, then with the error
of the first of its nodes, in the order of evaluation, that fails on operands that have values. -/
theorem evaluate_strict (scope : Scope) (expression : Expression) :
    ((∃ value, evaluate scope expression = .ok value) ↔
      ∀ part, Expression.Occurs part expression → ∃ value, evaluate scope part = .ok value) ∧
    ∀ error, evaluate scope expression = .error error ↔
      ∃ node, expression.nodes.find? (faulty scope) = some node ∧
        evaluate scope node = .error error := by
  constructor
  · constructor
    · intro succeeds part occurs
      exact hasValue_iff.mp (hasValue_part occurs (hasValue_iff.mpr succeeds))
    · intro all
      exact all expression .here
  · intro error
    constructor
    · exact find?_faulty_of_error
    · rintro ⟨node, isFirst, nodeFailed⟩
      cases evaluated : evaluate scope expression with
      | ok value =>
          rw [find?_faulty_of_ok evaluated] at isFirst
          cases isFirst
      | error other =>
          obtain ⟨first, isFound, firstFailed⟩ := find?_faulty_of_error evaluated
          obtain rfl : node = first := Option.some.inj (isFirst.symm.trans isFound)
          exact firstFailed.symm.trans nodeFailed

example : evaluate .outermost (.binary .or (.literal (.boolean true) 1)
    (.binary .add (.literal (.boolean true) 2) (.reference "x" 3) 2) 1) =
      .error ⟨3, .unknownVariable "x"⟩ := rfl

end WhileLang
