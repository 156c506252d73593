import WhileLang.Evaluation
import WhileLang.Machine

/-!
Running statements. Loops need not end, so a run is given fuel: it bounds how deep statements nest
and how often each loop goes round, and a run that uses it up is `unfinished`, which is no answer
about the program. With more fuel a run that ended ends in the same way.
-/

namespace WhileLang

def executeAll (step : Statement → Machine → Outcome) : List Statement → Machine → Outcome
  | [], machine => .finished machine
  | statement :: rest, machine =>
      match step statement machine with
      | .finished next => executeAll step rest next
      | .failed error next => .failed error next
      | .unfinished => .unfinished

def iterate (condition : Expression) (body : Machine → Outcome) (line : Nat) :
    (fuel count : Nat) → Machine → Outcome
  | 0, _, _ => .unfinished
  | fuel + 1, count, machine =>
      match test machine.scope condition line with
      | .error error => .failed error machine
      | .ok false => .finished (machine.record (.loopFinished line count))
      | .ok true =>
          match body machine with
          | .finished next => iterate condition body line fuel (count + 1) next
          | .failed error next => .failed error next
          | .unfinished => .unfinished

/-- Runs a statement, the start of which has been recorded, with `step` for the statements inside
it. -/
def perform (fuel : Nat) (step : Statement → Machine → Outcome) :
    Statement → Machine → Outcome
  | .declare name value _, machine =>
      match evaluate machine.scope value with
      | .error error => .failed error machine
      | .ok value => .finished { machine with scope := machine.scope.declare name value }
  | .assign name value line, machine =>
      if machine.scope.contains name then
        match evaluate machine.scope value with
        | .error error => .failed error machine
        | .ok value => .finished { machine with scope := machine.scope.declare name value }
      else .failed { line, fault := .unknownVariable name } machine
  | .branch condition whenTrue whenFalse line, machine =>
      match test machine.scope condition line with
      | .error error => .failed error machine
      | .ok true => executeAll step whenTrue machine
      | .ok false => executeAll step whenFalse machine
  | .loop condition body line, machine =>
      iterate condition (executeAll step body) line fuel 0 machine
  | .print value line, machine =>
      match evaluate machine.scope value with
      | .error error => .failed error machine
      | .ok value =>
          match machine.console.write? value.text with
          | some console => .finished { machine with console }
          | none => .failed { line, fault := .outputClosed } machine

def execute : (fuel : Nat) → Statement → Machine → Outcome
  | 0, _, _ => .unfinished
  | fuel + 1, statement, machine =>
      perform fuel (execute fuel) statement (machine.record (.statementStarted statement.line))

def executeBlock (fuel : Nat) (statements : List Statement) (machine : Machine) : Outcome :=
  executeAll (execute fuel) statements machine

end WhileLang
