import WhileLang.Evaluation
import WhileLang.Proofs.Scope

/-!
Evaluation up to the kinds of values. Whether an expression has a value, of which kind the value is,
and with which error it fails otherwise, all depends on the kinds of what its names are bound to and
not on the numbers and truth values themselves.
-/

namespace WhileLang

/-- The kind of what an operator gives, for operands of kinds that it takes. -/
def Operator.result? : Operator → Kind → Kind → Option Kind
  | add, .number, .number => some .number
  | subtract, .number, .number => some .number
  | multiply, .number, .number => some .number
  | divide, .number, .number => some .number
  | and, .boolean, .boolean => some .boolean
  | or, .boolean, .boolean => some .boolean
  | greater, .number, .number => some .boolean
  | less, .number, .number => some .boolean
  | strictEqual, _, _ => some .boolean
  | _, _, _ => none

theorem Operator.kind_apply (op : Operator) (line : Nat) (left right : Value) :
    (op.apply line left right).map Value.kind =
      match op.result? left.kind right.kind with
      | some kind => .ok kind
      | none => .error { line, fault := .operandKinds op left.kind right.kind } := by
  cases op <;> cases left <;> cases right <;> rfl

inductive Standing where
  | bound (kind : Kind)
  | unbound
  | notAValue
deriving DecidableEq

namespace Standing

def ofResult : Except Error Value → Standing
  | .ok value => .bound value.kind
  | .error { fault := .notAValue _, .. } => .notAValue
  | .error _ => .unbound

def read (name : String) (line : Nat) : Standing → Except Error Kind
  | bound kind => .ok kind
  | unbound => .error { line, fault := .unknownVariable name }
  | notAValue => .error { line, fault := .notAValue name }

end Standing

namespace Scope

/-- How the names stand in a scope. The line is only for errors and does not count. -/
def standing (scope : Scope) (name : String) : Standing := .ofResult (scope.resolve name 0)

theorem follow_kind (name : String) (line : Nat) (nested : Scope) :
    (nested.follow name line).map Value.kind =
      (Standing.ofResult (nested.follow name 0)).read name line := by
  fun_induction follow name line nested with
  | case1 nested noParent =>
      rw [follow_of_no_parent noParent]
      rfl
  | case2 nested parent hasParent missing =>
      rw [follow_of_parent hasParent, missing]
      rfl
  | case3 nested parent hasParent value found =>
      rw [follow_of_parent hasParent, found]
      rfl
  | case4 nested parent hasParent inner found ih =>
      rw [follow_of_parent hasParent, found]
      exact ih

theorem resolve_kind (name : String) (line : Nat) (scope : Scope) :
    (scope.resolve name line).map Value.kind = (scope.standing name).read name line := by
  simp only [standing, resolve]
  cases scope.get? name with
  | none => rfl
  | some binding =>
      cases binding with
      | value value => rfl
      | scope nested => exact follow_kind name line nested

end Scope

def Expression.kind (standing : String → Standing) : Expression → Except Error Kind
  | literal value _ => .ok value.kind
  | reference name line => (standing name).read name line
  | binary op left right line => do
      let leftKind ← left.kind standing
      let rightKind ← right.kind standing
      match op.result? leftKind rightKind with
      | some kind => .ok kind
      | none => .error { line, fault := .operandKinds op leftKind rightKind }

theorem kind_bind {first : Except Error Value} {next : Value → Except Error Value}
    {other : Kind → Except Error Kind}
    (same : ∀ value, (next value).map Value.kind = other value.kind) :
    (first >>= next).map Value.kind = first.map Value.kind >>= other := by
  cases first with
  | error error => rfl
  | ok value => exact same value

theorem evaluate_kind (scope : Scope) (expression : Expression) :
    (evaluate scope expression).map Value.kind = expression.kind scope.standing := by
  induction expression with
  | literal value line => rfl
  | reference name line => exact scope.resolve_kind name line
  | binary op left right line leftIh rightIh =>
      simp only [evaluate, Expression.kind]
      rw [← leftIh]
      apply kind_bind
      intro leftValue
      rw [← rightIh]
      apply kind_bind
      intro rightValue
      exact op.kind_apply line leftValue rightValue

theorem map_kind_cases {result other : Except Error Value}
    (same : result.map Value.kind = other.map Value.kind) :
    (∃ value otherValue, result = .ok value ∧ other = .ok otherValue ∧
      value.kind = otherValue.kind) ∨
    ∃ error, result = .error error ∧ other = .error error := by
  cases result with
  | error error =>
      cases other with
      | error otherError => exact .inr ⟨error, rfl, congrArg _ (Except.error.inj same).symm⟩
      | ok otherValue => cases same
  | ok value =>
      cases other with
      | error otherError => cases same
      | ok otherValue => exact .inl ⟨value, otherValue, rfl, rfl, Except.ok.inj same⟩

/-- Evaluation without the value is the inference of kinds from how the names stand. So in two
scopes where all names stand alike an expression has values of one kind or fails with one error. -/
theorem evaluate_decided_by_kinds :
    (∀ scope expression,
      (evaluate scope expression).map Value.kind = expression.kind scope.standing) ∧
    ∀ scope other : Scope, (∀ name, scope.standing name = other.standing name) →
      ∀ expression,
        (∃ value otherValue, evaluate scope expression = .ok value ∧
          evaluate other expression = .ok otherValue ∧ value.kind = otherValue.kind) ∨
        ∃ error, evaluate scope expression = .error error ∧
          evaluate other expression = .error error := by
  refine ⟨evaluate_kind, ?_⟩
  intro scope other alike expression
  apply map_kind_cases
  rw [evaluate_kind, evaluate_kind, funext alike]

theorem evaluate_decided_by_kinds_undefined_number :
    (∀ name, (Scope.withValue "x" (.number 1) .outermost).standing name =
      (Scope.withValue "x" (.number (0 / 0)) .outermost).standing name) ∧
    ∀ expression,
      (∃ value otherValue,
        evaluate (.withValue "x" (.number 1) .outermost) expression = .ok value ∧
        evaluate (.withValue "x" (.number (0 / 0)) .outermost) expression = .ok otherValue ∧
        value.kind = otherValue.kind) ∨
      ∃ error,
        evaluate (.withValue "x" (.number 1) .outermost) expression = .error error ∧
        evaluate (.withValue "x" (.number (0 / 0)) .outermost) expression = .error error := by
  have alike : ∀ name, (Scope.withValue "x" (.number 1) .outermost).standing name =
      (Scope.withValue "x" (.number (0 / 0)) .outermost).standing name := by
    intro name
    by_cases isX : "x" = name
    · simp [Scope.standing, Scope.resolve, Scope.get?, isX, Standing.ofResult, Value.kind]
    · simp [Scope.standing, Scope.resolve, Scope.get?, isX]
  exact ⟨alike, evaluate_decided_by_kinds.2 _ _ alike⟩

end WhileLang
