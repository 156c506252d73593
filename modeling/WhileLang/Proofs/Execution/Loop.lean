import WhileLang.Proofs.Execution.Events
import WhileLang.Proofs.Execution.Frame

/-!
A loop is its test and its body, over and over. It ends exactly if there is a chain of stages, at
each of which the condition holds and the body leads on to the next, up to one where the condition
is false, cannot be tested, or holds and the body fails. The loop itself records when it starts and,
only if it ends at a false condition, after how many rounds.
-/

namespace WhileLang

/-- A run, as a function of its fuel, ends in this way as soon as it is given enough. -/
def Ends (run : Nat → Outcome) (outcome : Outcome) : Prop :=
  outcome ≠ .unfinished ∧ ∃ enough, ∀ fuel, enough ≤ fuel → run fuel = outcome

/-- The first rounds of a loop. A stage is what the machine is at a test, with those events only
that the round in front of it has recorded. -/
structure Rounds (condition : Expression) (body : List Statement) (rounds : Nat)
    (stages : Nat → Machine) : Prop where
  holds : ∀ round, round < rounds → evaluate (stages round).scope condition = .ok (.boolean true)
  finishes : ∀ round, round < rounds →
    Ends (executeBlock · body (stages round).quiet) (.finished (stages (round + 1)))

/-- How a loop that has been round so many times ends at its next test. -/
inductive LastTest (condition : Expression) (body : List Statement) (line rounds : Nat)
    (last : Machine) : Outcome → Prop
  | done : evaluate last.scope condition = .ok (.boolean false) →
      LastTest condition body line rounds last (.finished (last.record (.loopFinished line rounds)))
  | fault {error} : evaluate last.scope condition = .error error →
      LastTest condition body line rounds last (.failed error last)
  | number {value} : evaluate last.scope condition = .ok (.number value) →
      LastTest condition body line rounds last
        (.failed { line, fault := .conditionKind .number } last)
  | inside {error final} : evaluate last.scope condition = .ok (.boolean true) →
      Ends (executeBlock · body last) (.failed error final) →
      LastTest condition body line rounds last (.failed error final)

def recorded (stages : Nat → Machine) : Nat → Array Event
  | 0 => (stages 0).events
  | rounds + 1 => (stages 0).events ++ recorded (fun round => stages (round + 1)) rounds

theorem test_eq_ok_iff {scope : Scope} {condition : Expression} {line : Nat} {holds : Bool} :
    test scope condition line = .ok holds ↔ evaluate scope condition = .ok (.boolean holds) := by
  rw [test]
  rcases evaluate scope condition with error | value | value
  · simp [bind, Except.bind]
  · simp [bind, Except.bind, Value.condition]
  · simp [bind, Except.bind, Value.condition]

theorem test_eq_error_iff {scope : Scope} {condition : Expression} {line : Nat} {error : Error} :
    test scope condition line = .error error ↔
      evaluate scope condition = .error error ∨
        (∃ value, evaluate scope condition = .ok (.number value)) ∧
          error = { line, fault := .conditionKind .number } := by
  rw [test]
  rcases evaluate scope condition with failure | value | value
  · simp [bind, Except.bind]
  · simp [bind, Except.bind, Value.condition, eq_comm]
  · simp [bind, Except.bind, Value.condition]

theorem ends_executeBlock {fuel : Nat} {program : List Statement} {machine : Machine}
    (ended : executeBlock fuel program machine ≠ .unfinished) :
    Ends (executeBlock · program machine) (executeBlock fuel program machine) := by
  obtain ⟨count, isOutcome⟩ := exists_moment ended
  refine ⟨ended, count, ?_⟩
  intro more atLeast
  rw [← isOutcome] at ended ⊢
  exact executeBlock_of_moment ended atLeast

theorem ends_execute {fuel : Nat} {statement : Statement} {machine : Machine}
    (ended : execute fuel statement machine ≠ .unfinished) :
    Ends (execute · statement machine) (execute fuel statement machine) := by
  simp only [← executeBlock_singleton] at ended ⊢
  exact ends_executeBlock ended

section

variable {condition : Expression} {body : List Statement} {line : Nat} {machine : Machine}

theorem LastTest.iterate {rounds : Nat} {ending : Outcome}
    (last : LastTest condition body line rounds machine ending) :
    ∃ enough, ∀ bodyFuel, enough ≤ bodyFuel → ∀ fuel,
      iterate condition (executeBlock bodyFuel body) line (fuel + 1) rounds machine = ending := by
  cases last with
  | done evaluated =>
      refine ⟨0, fun bodyFuel _ fuel => ?_⟩
      rw [WhileLang.iterate, test_eq_ok_iff.mpr evaluated]
  | fault evaluated =>
      refine ⟨0, fun bodyFuel _ fuel => ?_⟩
      rw [WhileLang.iterate, test_eq_error_iff.mpr (.inl evaluated)]
  | number evaluated =>
      refine ⟨0, fun bodyFuel _ fuel => ?_⟩
      rw [WhileLang.iterate, test_eq_error_iff.mpr (.inr ⟨⟨_, evaluated⟩, rfl⟩)]
  | inside evaluated bodyEnds =>
      obtain ⟨_, enough, isFailed⟩ := bodyEnds
      refine ⟨enough, fun bodyFuel atLeast fuel => ?_⟩
      simp only [WhileLang.iterate, test_eq_ok_iff.mpr evaluated, isFailed bodyFuel atLeast]

theorem LastTest.ne_unfinished {rounds : Nat} {ending : Outcome}
    (last : LastTest condition body line rounds machine ending) : ending ≠ .unfinished := by
  cases last <;> exact nofun

theorem iterate_cases {bodyFuel fuel count : Nat}
    (ended : iterate condition (executeBlock bodyFuel body) line (fuel + 1) count machine ≠
      .unfinished) :
    LastTest condition body line count machine
        (iterate condition (executeBlock bodyFuel body) line (fuel + 1) count machine) ∨
      ∃ next, evaluate machine.scope condition = .ok (.boolean true) ∧
        executeBlock bodyFuel body machine = .finished next ∧
        iterate condition (executeBlock bodyFuel body) line (fuel + 1) count machine =
          iterate condition (executeBlock bodyFuel body) line fuel (count + 1) next := by
  rw [iterate] at ended ⊢
  cases tested : test machine.scope condition line with
  | error error =>
      rcases test_eq_error_iff.mp tested with evaluated | ⟨⟨value, evaluated⟩, rfl⟩
      · exact .inl (.fault evaluated)
      · exact .inl (.number evaluated)
  | ok holds =>
      have evaluated := test_eq_ok_iff.mp tested
      cases holds with
      | false => exact .inl (.done evaluated)
      | true =>
          simp only [tested] at ended ⊢
          cases once : executeBlock bodyFuel body machine with
          | finished next => exact .inr ⟨next, evaluated, rfl, rfl⟩
          | failed error final =>
              have bodyEnds : Ends (executeBlock · body machine) (.failed error final) := by
                rw [← once]
                exact ends_executeBlock (by simp [once])
              exact .inl (.inside evaluated bodyEnds)
          | unfinished =>
              rw [once] at ended
              exact absurd rfl ended

theorem iterate_executeBlock_precede (bodyFuel fuel count : Nat) (earlier : Array Event) :
    iterate condition (executeBlock bodyFuel body) line fuel count (machine.precede earlier) =
      (iterate condition (executeBlock bodyFuel body) line fuel count machine).precede earlier :=
  iterate_precede (executeBlock_precede bodyFuel body) condition line fuel count machine

theorem iterate_eq_quiet (bodyFuel fuel count : Nat) (machine : Machine) :
    iterate condition (executeBlock bodyFuel body) line fuel count machine =
      (iterate condition (executeBlock bodyFuel body) line fuel count machine.quiet).precede
        machine.events := by
  rw [← iterate_executeBlock_precede, Machine.quiet_precede_events]

theorem Rounds.tail {rounds : Nat} {stages : Nat → Machine}
    (chain : Rounds condition body (rounds + 1) stages) :
    Rounds condition body rounds fun round => stages (round + 1) where
  holds round isRound := chain.holds (round + 1) (by omega)
  finishes round isRound := chain.finishes (round + 1) (by omega)

theorem Rounds.cons (first : Machine) {rounds : Nat} {stages : Nat → Machine}
    (evaluated : evaluate first.scope condition = .ok (.boolean true))
    (once : Ends (executeBlock · body first.quiet) (.finished (stages 0)))
    (chain : Rounds condition body rounds stages) :
    Rounds condition body (rounds + 1) fun
      | 0 => first
      | round + 1 => stages round where
  holds
    | 0, _ => evaluated
    | round + 1, isRound => chain.holds round (by omega)
  finishes
    | 0, _ => once
    | round + 1, isRound => chain.finishes round (by omega)

theorem Rounds.iterate {rounds count : Nat} {stages : Nat → Machine} {ending : Outcome}
    (chain : Rounds condition body rounds stages)
    (last : LastTest condition body line (count + rounds) (stages rounds).quiet ending) :
    ∃ enough, ∀ bodyFuel, enough ≤ bodyFuel → ∀ fuel, enough ≤ fuel →
      iterate condition (executeBlock bodyFuel body) line fuel count (stages 0) =
        ending.precede (recorded stages rounds) := by
  induction rounds generalizing stages count with
  | zero =>
      obtain ⟨enough, isEnding⟩ := last.iterate
      refine ⟨enough + 1, fun bodyFuel bodyEnough fuel fuelEnough => ?_⟩
      obtain ⟨fuel, rfl⟩ := Nat.exists_eq_succ_of_ne_zero (by omega : fuel ≠ 0)
      have quietly : WhileLang.iterate condition (executeBlock bodyFuel body) line (fuel + 1) count
          (stages 0).quiet = ending := isEnding bodyFuel (by omega) fuel
      rw [iterate_eq_quiet, quietly]
      rfl
  | succ rounds ih =>
      obtain ⟨_, bodyEnough, isNext⟩ := chain.finishes 0 (by omega)
      rw [← Nat.add_assoc, Nat.add_right_comm] at last
      obtain ⟨restEnough, isEnding⟩ := ih chain.tail last
      refine ⟨max bodyEnough restEnough + 1, fun bodyFuel atLeast fuel fuelEnough => ?_⟩
      obtain ⟨fuel, rfl⟩ := Nat.exists_eq_succ_of_ne_zero (by omega : fuel ≠ 0)
      have quietly : executeBlock bodyFuel body (stages 0).quiet = .finished (stages 1) :=
        isNext bodyFuel (by omega)
      have once : executeBlock bodyFuel body (stages 0) =
          .finished ((stages 1).precede (stages 0).events) := by
        rw [executeBlock_eq_quiet, quietly]
        rfl
      have evaluated := chain.holds 0 (by omega)
      simp only [WhileLang.iterate, test_eq_ok_iff.mpr evaluated, once]
      rw [iterate_executeBlock_precede, isEnding bodyFuel (by omega) fuel (by omega),
        Outcome.precede_precede]
      rfl

theorem exists_rounds {bodyFuel fuel count : Nat}
    (ended : iterate condition (executeBlock bodyFuel body) line fuel count machine ≠
      .unfinished) :
    ∃ rounds stages ending, stages 0 = machine ∧ Rounds condition body rounds stages ∧
      LastTest condition body line (count + rounds) (stages rounds).quiet ending ∧
      iterate condition (executeBlock bodyFuel body) line fuel count machine =
        ending.precede (recorded stages rounds) := by
  induction fuel generalizing count machine with
  | zero => exact absurd rfl ended
  | succ fuel ih =>
      -- The events so far are taken off before each round, so that a stage has only its own, and
      -- are put back in front of the outcome.
      have quietly : iterate condition (executeBlock bodyFuel body) line (fuel + 1) count
          machine.quiet ≠ .unfinished := by
        intro unfinished
        rw [iterate_eq_quiet, unfinished] at ended
        exact ended rfl
      rw [iterate_eq_quiet]
      rcases iterate_cases quietly with last | ⟨next, evaluated, once, isRest⟩
      · exact ⟨0, fun _ => machine, _, rfl, ⟨nofun, nofun⟩, last, rfl⟩
      · rw [isRest] at quietly ⊢
        obtain ⟨rounds, stages, ending, rfl, chain, last, isEnding⟩ := ih quietly
        have bodyEnds : Ends (executeBlock · body machine.quiet) (.finished (stages 0)) := by
          rw [← once]
          exact ends_executeBlock (by simp [once])
        refine ⟨rounds + 1, _, ending, rfl, chain.cons machine evaluated bodyEnds, ?_, ?_⟩
        · rw [← Nat.add_assoc, Nat.add_right_comm]
          exact last
        · rw [isEnding, Outcome.precede_precede]
          rfl

end

/-- A loop ends with one outcome for all sufficient fuel, and this is it: some rounds, each with the
condition true and a body that finishes, and then a last test, whose outcome has the events of all
rounds in front of its own. -/
theorem execute_loop_rounds (condition : Expression) (body : List Statement) (line : Nat)
    (machine : Machine) :
    (∀ fuel, execute fuel (.loop condition body line) machine ≠ .unfinished →
      Ends (execute · (.loop condition body line) machine)
        (execute fuel (.loop condition body line) machine)) ∧
    ∀ outcome, Ends (execute · (.loop condition body line) machine) outcome ↔
      ∃ rounds stages ending, stages 0 = machine.record (.statementStarted line) ∧
        Rounds condition body rounds stages ∧
        LastTest condition body line rounds (stages rounds).quiet ending ∧
        outcome = ending.precede (recorded stages rounds) := by
  refine ⟨fun fuel => ends_execute, fun outcome => ⟨?_, ?_⟩⟩
  · rintro ⟨ended, enough, isOutcome⟩
    have atLast := isOutcome (enough + 1) (Nat.le_succ enough)
    rw [← atLast] at ended ⊢
    obtain ⟨rounds, stages, ending, isFirst, chain, last, isEnding⟩ := exists_rounds ended
    rw [Nat.zero_add] at last
    exact ⟨rounds, stages, ending, isFirst, chain, last, isEnding⟩
  · rintro ⟨rounds, stages, ending, isFirst, chain, last, rfl⟩
    have fromZero : LastTest condition body line (0 + rounds) (stages rounds).quiet ending := by
      rw [Nat.zero_add]
      exact last
    obtain ⟨enough, isEnding⟩ := chain.iterate fromZero
    refine ⟨fun unfinished => ?_, enough + 1, fun fuel atLeast => ?_⟩
    · exact last.ne_unfinished (Outcome.precede_eq_unfinished_iff.mp unfinished)
    · obtain ⟨fuel, rfl⟩ := Nat.exists_eq_succ_of_ne_zero (by omega : fuel ≠ 0)
      rw [← isEnding fuel (by omega) fuel (by omega), isFirst]
      rfl

/-- The loop of `counting`, from a scope in which `x` is zero, goes round twice. -/
theorem execute_loop_rounds_counting :
    ∃ condition body final stages, counting[1]? = some (.loop condition body 2) ∧
      execute 4 (.loop condition body 2) { scope := .ofList [("x", .number 0)] } =
        .finished final ∧
      final.events.back? = some (.loopFinished 2 2) ∧
      stages 0 = { scope := .ofList [("x", .number 0)], events := #[.statementStarted 2] } ∧
      Rounds condition body 2 stages ∧
      evaluate (stages 2).scope condition = .ok (.boolean false) := by
  let condition : Expression :=
    .binary .less (.reference "x" 2) (.literal (.number 2) 2) 2
  let body : List Statement :=
    [.print (.reference "x" 3) 3,
      .assign "x" (.binary .add (.reference "x" 4) (.literal (.number 1) 4) 4) 4]
  let machine : Machine := { scope := .ofList [("x", .number 0)] }
  have lastEvent : (match execute 4 (.loop condition body 2) machine with
      | .finished final => final.events.back?
      | _ => none) = some (.loopFinished 2 2) := by decide +kernel
  obtain ⟨endsAlike, ends_iff⟩ := execute_loop_rounds condition body 2 machine
  cases ended : execute 4 (.loop condition body 2) machine with
  | finished final =>
      rw [ended] at lastEvent
      have ends := endsAlike 4 (by simp [ended])
      obtain ⟨rounds, stages, ending, isFirst, chain, last, isEnding⟩ := (ends_iff _).mp ends
      rw [ended] at isEnding
      cases last with
      | done evaluated =>
          obtain rfl := Outcome.finished.inj isEnding
          obtain rfl : rounds = 2 := by simpa [Machine.precede, Machine.record] using lastEvent
          exact ⟨condition, body, _, stages, rfl, ended, lastEvent, isFirst, chain, evaluated⟩
      | fault | number | inside => cases isEnding
  | failed error final =>
      rw [ended] at lastEvent
      cases lastEvent
  | unfinished =>
      rw [ended] at lastEvent
      cases lastEvent

end WhileLang
