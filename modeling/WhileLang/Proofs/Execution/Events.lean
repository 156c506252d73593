import WhileLang.Proofs.Execution.StraightLine

/-!
Events are only written. What a machine has recorded before a run has no part in the run: it ends
in the same way with it as without it, and what the run records is put behind it.
-/

namespace WhileLang

namespace Machine

def precede (earlier : Array Event) (machine : Machine) : Machine :=
  { machine with events := earlier ++ machine.events }

def quiet (machine : Machine) : Machine := { machine with events := #[] }

@[simp] theorem precede_scope (earlier : Array Event) (machine : Machine) :
    (machine.precede earlier).scope = machine.scope := rfl

theorem precede_record (earlier : Array Event) (machine : Machine) (event : Event) :
    (machine.precede earlier).record event = (machine.record event).precede earlier := by
  simp [precede, record]

theorem precede_precede (earlier earliest : Array Event) (machine : Machine) :
    (machine.precede earlier).precede earliest = machine.precede (earliest ++ earlier) := by
  simp [precede]

@[simp] theorem quiet_precede_events (machine : Machine) :
    machine.quiet.precede machine.events = machine := by
  simp [precede, quiet]

end Machine

namespace Outcome

def precede (earlier : Array Event) : Outcome → Outcome
  | finished machine => finished (machine.precede earlier)
  | failed error machine => failed error (machine.precede earlier)
  | unfinished => unfinished

theorem precede_precede (earlier earliest : Array Event) (outcome : Outcome) :
    (outcome.precede earlier).precede earliest = outcome.precede (earliest ++ earlier) := by
  cases outcome with
  | finished machine => rw [precede, precede, precede, machine.precede_precede]
  | failed error machine => rw [precede, precede, precede, machine.precede_precede]
  | unfinished => rfl

theorem precede_eq_unfinished_iff {earlier : Array Event} {outcome : Outcome} :
    outcome.precede earlier = .unfinished ↔ outcome = .unfinished := by
  cases outcome <;> simp [precede]

end Outcome

variable {earlier : Array Event}

theorem Statement.effect_keeps_events {statement : Statement} {machine next : Machine}
    (isEffect : statement.effect machine = .ok next) : next.events = machine.events := by
  have same := statement.effect_events machine machine.events
  rw [isEffect] at same
  have isNext : next = { next with events := machine.events } := Except.ok.inj same
  rw [isNext]

theorem Statement.ending_precede (statement : Statement) (machine : Machine) :
    statement.ending (machine.precede earlier) = (statement.ending machine).precede earlier := by
  rw [ending, ending, Machine.precede, statement.effect_events]
  cases isEffect : statement.effect machine with
  | error error => rfl
  | ok next =>
      have sameEvents := effect_keeps_events isEffect
      change Outcome.finished { next with events := earlier ++ machine.events } =
        .finished (next.precede earlier)
      rw [Machine.precede, sameEvents]

theorem executeAll_precede {step : Statement → Machine → Outcome}
    (stepKeeps : ∀ statement machine,
      step statement (machine.precede earlier) = (step statement machine).precede earlier)
    (statements : List Statement) (machine : Machine) :
    executeAll step statements (machine.precede earlier) =
      (executeAll step statements machine).precede earlier := by
  induction statements generalizing machine with
  | nil => rfl
  | cons first rest ih =>
      rw [executeAll, executeAll, stepKeeps]
      cases step first machine with
      | finished next => exact ih next
      | failed error next => rfl
      | unfinished => rfl

theorem iterate_precede {body : Machine → Outcome}
    (bodyKeeps : ∀ machine, body (machine.precede earlier) = (body machine).precede earlier)
    (condition : Expression) (line fuel count : Nat) (machine : Machine) :
    iterate condition body line fuel count (machine.precede earlier) =
      (iterate condition body line fuel count machine).precede earlier := by
  induction fuel generalizing count machine with
  | zero => rfl
  | succ fuel ih =>
      rw [iterate, iterate, Machine.precede_scope]
      cases test machine.scope condition line with
      | error error => rfl
      | ok holds =>
          cases holds with
          | false => exact congrArg Outcome.finished (machine.precede_record earlier _)
          | true =>
              simp only [bodyKeeps]
              cases body machine with
              | finished next => exact ih (count + 1) next
              | failed error next => rfl
              | unfinished => rfl

theorem execute_precede (fuel : Nat) (statement : Statement) (machine : Machine) :
    execute fuel statement (machine.precede earlier) =
      (execute fuel statement machine).precede earlier := by
  induction fuel generalizing statement machine with
  | zero => rfl
  | succ fuel ih =>
      rw [execute, execute, machine.precede_record]
      generalize machine.record (.statementStarted statement.line) = started
      by_cases simple : statement.isSimple = true
      · rw [perform_of_simple simple, perform_of_simple simple]
        exact statement.ending_precede started
      · cases statement with
        | declare | assign | print => exact absurd rfl simple
        | branch condition whenTrue whenFalse line =>
            rw [perform, perform, Machine.precede_scope]
            cases test started.scope condition line with
            | error error => rfl
            | ok holds =>
                cases holds with
                | true => exact executeAll_precede ih whenTrue started
                | false => exact executeAll_precede ih whenFalse started
        | loop condition body line =>
            rw [perform, perform]
            exact iterate_precede (executeAll_precede ih body) condition line fuel 0 started

theorem executeBlock_precede (fuel : Nat) (program : List Statement) (machine : Machine) :
    executeBlock fuel program (machine.precede earlier) =
      (executeBlock fuel program machine).precede earlier :=
  executeAll_precede (execute_precede fuel) program machine

theorem executeBlock_eq_quiet (fuel : Nat) (program : List Statement) (machine : Machine) :
    executeBlock fuel program machine =
      (executeBlock fuel program machine.quiet).precede machine.events := by
  rw [← executeBlock_precede, Machine.quiet_precede_events]

end WhileLang
