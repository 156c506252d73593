import Mathlib.Logic.Function.Iterate
import WhileLang.Program

/-!
A run, one step at a time. A moment of a run holds what is left to do and the machine as it is then,
so that one can speak of what a run does on the way, and of runs that never end. With enough fuel a
block ends exactly as its moments do.
-/

namespace WhileLang

inductive Task where
  | run (statement : Statement)
  | again (condition : Expression) (body : List Statement) (line count : Nat)

structure Moment where
  remaining : Except Error (List Task)
  machine : Machine

namespace Statement

def isSimple : Statement → Bool
  | branch _ _ _ _ | loop _ _ _ => false
  | _ => true

/-- What a statement does to the machine. A branch or a loop only chooses what is done next. -/
def effect : Statement → Machine → Except Error Machine
  | declare name value _, machine => do
      let value ← evaluate machine.scope value
      return { machine with scope := machine.scope.declare name value }
  | assign name value line, machine =>
      if machine.scope.contains name then do
        let value ← evaluate machine.scope value
        return { machine with scope := machine.scope.declare name value }
      else .error { line, fault := .unknownVariable name }
  | print value line, machine => do
      let value ← evaluate machine.scope value
      match machine.console.write? value.text with
      | some console => return { machine with console }
      | none => .error { line, fault := .outputClosed }
  | branch _ _ _ _, machine => .ok machine
  | loop _ _ _, machine => .ok machine

def advance : Statement → Machine → Moment
  | branch condition whenTrue whenFalse line, machine =>
      match test machine.scope condition line with
      | .error error => ⟨.error error, machine⟩
      | .ok holds => ⟨.ok ((if holds then whenTrue else whenFalse).map .run), machine⟩
  | loop condition body line, machine => ⟨.ok [.again condition body line 0], machine⟩
  | statement, machine =>
      match statement.effect machine with
      | .error error => ⟨.error error, machine⟩
      | .ok next => ⟨.ok [], next⟩

end Statement

/-- The first step of a task, with what the task itself has still to do after it. -/
def Task.advance : Task → Machine → Moment
  | run statement, machine => statement.advance (machine.record (.statementStarted statement.line))
  | again condition body line count, machine =>
      match test machine.scope condition line with
      | .error error => ⟨.error error, machine⟩
      | .ok false => ⟨.ok [], machine.record (.loopFinished line count)⟩
      | .ok true => ⟨.ok (body.map .run ++ [.again condition body line (count + 1)]), machine⟩

section

variable {condition : Expression} {line : Nat} {machine : Machine}

theorem Statement.advance_of_simple {statement : Statement} (simple : statement.isSimple = true) :
    statement.advance machine =
      match statement.effect machine with
      | .error error => ⟨.error error, machine⟩
      | .ok next => ⟨.ok [], next⟩ := by
  cases statement with
  | declare | assign | print => rfl
  | branch | loop => cases simple

theorem Statement.advance_branch_of_error {error : Error} {whenTrue whenFalse : List Statement}
    (tested : test machine.scope condition line = .error error) :
    (branch condition whenTrue whenFalse line).advance machine = ⟨.error error, machine⟩ := by
  rw [advance, tested]

theorem Statement.advance_branch_of_ok {holds : Bool} {whenTrue whenFalse : List Statement}
    (tested : test machine.scope condition line = .ok holds) :
    (branch condition whenTrue whenFalse line).advance machine =
      ⟨.ok ((if holds then whenTrue else whenFalse).map .run), machine⟩ := by
  rw [advance, tested]

variable {body : List Statement} {count : Nat}

theorem Task.advance_again_of_error {error : Error}
    (tested : test machine.scope condition line = .error error) :
    (again condition body line count).advance machine = ⟨.error error, machine⟩ := by
  rw [advance, tested]

theorem Task.advance_again_of_false (tested : test machine.scope condition line = .ok false) :
    (again condition body line count).advance machine =
      ⟨.ok [], machine.record (.loopFinished line count)⟩ := by
  rw [advance, tested]

theorem Task.advance_again_of_true (tested : test machine.scope condition line = .ok true) :
    (again condition body line count).advance machine =
      ⟨.ok (body.map .run ++ [.again condition body line (count + 1)]), machine⟩ := by
  rw [advance, tested]

end

namespace Moment

def before (moment : Moment) (rest : List Task) : Moment :=
  { moment with remaining := moment.remaining.map (· ++ rest) }

theorem before_ok (tasks rest : List Task) (machine : Machine) :
    before ⟨.ok tasks, machine⟩ rest = ⟨.ok (tasks ++ rest), machine⟩ := rfl

/-- The moment after the next step. A run that has ended stays as it is. -/
def next : Moment → Moment
  | ⟨.ok (task :: rest), machine⟩ => (task.advance machine).before rest
  | ended => ended

def first (program : List Statement) (machine : Machine) : Moment :=
  ⟨.ok (program.map .run), machine⟩

def outcome : Moment → Outcome
  | ⟨.ok [], machine⟩ => .finished machine
  | ⟨.ok (_ :: _), _⟩ => .unfinished
  | ⟨.error error, machine⟩ => .failed error machine

theorem machine_of_outcome {moment : Moment} {machine : Machine}
    (ended : moment.outcome.machine? = some machine) : moment.machine = machine := by
  rcases moment with ⟨_ | _ | ⟨task, rest⟩, last⟩
  · exact Option.some.inj ended
  · exact Option.some.inj ended
  · cases ended

theorem remaining_of_outcome {moment : Moment} {error : Error}
    (failed : moment.outcome.error? = some error) : moment.remaining = .error error := by
  rcases moment with ⟨_ | _ | ⟨task, rest⟩, last⟩
  · exact congrArg Except.error (Option.some.inj failed)
  · cases failed
  · cases failed

def Reaches (moment later : Moment) : Prop := ∃ count, next^[count] moment = later

theorem Reaches.refl (moment : Moment) : moment.Reaches moment := ⟨0, rfl⟩

theorem Reaches.step {moment later : Moment} (reaches : moment.next.Reaches later) :
    moment.Reaches later := by
  obtain ⟨count, isLater⟩ := reaches
  exact ⟨count + 1, isLater⟩

theorem Reaches.trans {moment later last : Moment} (reaches : moment.Reaches later)
    (onward : later.Reaches last) : moment.Reaches last := by
  obtain ⟨count, rfl⟩ := reaches
  obtain ⟨more, rfl⟩ := onward
  exact ⟨more + count, Function.iterate_add_apply next more count moment⟩

theorem iterate_next_of_ended {moment : Moment} (ended : moment.outcome ≠ .unfinished)
    (count : Nat) : next^[count] moment = moment := by
  have stays : moment.next = moment := by
    rcases moment with ⟨_ | _ | ⟨task, rest⟩, machine⟩
    · rfl
    · rfl
    · exact absurd rfl ended
  exact Function.iterate_fixed stays count

def EndsIn (count : Nat) (moment : Moment) : Prop := (next^[count] moment).outcome ≠ .unfinished

theorem EndsIn.iterate {count : Nat} {moment : Moment} (ends : moment.EndsIn count) (more : Nat) :
    next^[more + count] moment = next^[count] moment := by
  rw [Function.iterate_add_apply, iterate_next_of_ended ends]

theorem EndsIn.mono {count more : Nat} {moment : Moment} (ends : moment.EndsIn count)
    (atMost : count ≤ more) : moment.EndsIn more := by
  obtain ⟨further, rfl⟩ := Nat.exists_eq_add_of_le' atMost
  rw [EndsIn, ends.iterate]
  exact ends

theorem EndsIn.later {count : Nat} {moment later : Moment} (ends : moment.EndsIn count)
    (reaches : moment.Reaches later) : later.EndsIn count := by
  obtain ⟨steps, rfl⟩ := reaches
  rw [EndsIn, ← Function.iterate_add_apply, Nat.add_comm, ends.iterate]
  exact ends

theorem not_endsIn_zero {task : Task} {rest : List Task} {machine : Machine} :
    ¬ EndsIn 0 ⟨.ok (task :: rest), machine⟩ := fun ends => ends rfl

theorem EndsIn.next {count : Nat} {moment : Moment} (ends : moment.EndsIn (count + 1)) :
    moment.next.EndsIn count := ends

end Moment

open Moment

/-- The moment at which tasks that ran in this way have ended, with others left to do. -/
def Outcome.moment? (rest : List Task) : Outcome → Option Moment
  | finished machine => some ⟨.ok rest, machine⟩
  | failed error machine => some ⟨.error error, machine⟩
  | unfinished => none

theorem Outcome.exists_moment {outcome : Outcome} (ends : outcome ≠ .unfinished) :
    ∃ later ∈ outcome.moment? [], later.outcome = outcome := by
  cases outcome with
  | finished machine => exact ⟨_, rfl, rfl⟩
  | failed error machine => exact ⟨_, rfl, rfl⟩
  | unfinished => exact absurd rfl ends

/-- The run of some tasks ends in this way, whatever is left to do after them. -/
def LeadsTo (tasks : List Task) (machine : Machine) (outcome : Outcome) : Prop :=
  ∀ rest, ∀ later ∈ outcome.moment? rest, Reaches ⟨.ok (tasks ++ rest), machine⟩ later

namespace LeadsTo

variable {task : Task} {tasks others : List Task} {machine next : Machine} {outcome : Outcome}
  {error : Error}

theorem unfinished : LeadsTo tasks machine .unfinished := by
  intro rest later isLater
  cases isLater

theorem nil : LeadsTo [] machine (.finished machine) := by
  intro rest later isLater
  obtain rfl := Option.some.inj isLater
  exact .refl _

theorem fails (failed : task.advance machine = ⟨.error error, next⟩) :
    LeadsTo [task] machine (.failed error next) := by
  intro rest later isLater
  obtain rfl := Option.some.inj isLater
  refine .step ?_
  rw [List.singleton_append, Moment.next, failed]
  exact .refl _

theorem step (proceeds : task.advance machine = ⟨.ok tasks, next⟩)
    (leads : LeadsTo tasks next outcome) : LeadsTo [task] machine outcome := by
  intro rest later isLater
  refine .step ?_
  rw [List.singleton_append, Moment.next, proceeds]
  exact leads rest later isLater

theorem append (leads : LeadsTo tasks machine (.finished next))
    (onward : LeadsTo others next outcome) : LeadsTo (tasks ++ others) machine outcome := by
  intro rest later isLater
  rw [List.append_assoc]
  exact (leads (others ++ rest) _ rfl).trans (onward rest later isLater)

theorem append_of_failed (leads : LeadsTo tasks machine (.failed error next)) :
    LeadsTo (tasks ++ others) machine (.failed error next) := by
  intro rest later isLater
  rw [List.append_assoc]
  exact leads (others ++ rest) later isLater

end LeadsTo

theorem leadsTo_executeAll {step : Statement → Machine → Outcome}
    (stepLeads : ∀ statement machine, LeadsTo [.run statement] machine (step statement machine))
    (statements : List Statement) (machine : Machine) :
    LeadsTo (statements.map .run) machine (executeAll step statements machine) := by
  induction statements generalizing machine with
  | nil => exact .nil
  | cons first rest ih =>
      have firstLeads := stepLeads first machine
      rw [executeAll, List.map_cons, ← List.singleton_append]
      cases isOutcome : step first machine with
      | finished next =>
          rw [isOutcome] at firstLeads
          exact firstLeads.append (ih next)
      | failed error next =>
          rw [isOutcome] at firstLeads
          exact firstLeads.append_of_failed
      | unfinished => exact .unfinished

theorem leadsTo_iterate {condition : Expression} {body : List Statement} {line : Nat}
    {run : Machine → Outcome} (bodyLeads : ∀ machine, LeadsTo (body.map .run) machine (run machine))
    (fuel count : Nat) (machine : Machine) :
    LeadsTo [.again condition body line count] machine
      (iterate condition run line fuel count machine) := by
  induction fuel generalizing count machine with
  | zero => exact .unfinished
  | succ fuel ih =>
      rw [iterate]
      cases tested : test machine.scope condition line with
      | error error => exact .fails (Task.advance_again_of_error tested)
      | ok holds =>
          cases holds with
          | false => exact .step (Task.advance_again_of_false tested) .nil
          | true =>
              refine .step (Task.advance_again_of_true tested) ?_
              have once := bodyLeads machine
              cases isOutcome : run machine with
              | finished next =>
                  rw [isOutcome] at once
                  exact once.append (ih (count + 1) next)
              | failed error next =>
                  rw [isOutcome] at once
                  exact once.append_of_failed
              | unfinished => exact .unfinished

def Statement.ending (statement : Statement) (machine : Machine) : Outcome :=
  match statement.effect machine with
  | .ok next => .finished next
  | .error error => .failed error machine

theorem perform_of_simple {statement : Statement} (simple : statement.isSimple = true) (fuel : Nat)
    (step : Statement → Machine → Outcome) (machine : Machine) :
    perform fuel step statement machine = statement.ending machine := by
  cases statement with
  | declare name value line =>
      simp only [perform, Statement.ending, Statement.effect]
      cases evaluate machine.scope value <;> rfl
  | assign name value line =>
      simp only [perform, Statement.ending, Statement.effect]
      split
      · cases evaluate machine.scope value <;> rfl
      · rfl
  | print value line =>
      simp only [perform, Statement.ending, Statement.effect]
      cases evaluate machine.scope value with
      | error error => rfl
      | ok value =>
          simp only [bind, Except.bind]
          cases machine.console.write? value.text <;> rfl
  | branch condition whenTrue whenFalse line => cases simple
  | loop condition body line => cases simple

theorem leadsTo_execute (fuel : Nat) (statement : Statement) (machine : Machine) :
    LeadsTo [.run statement] machine (execute fuel statement machine) := by
  induction fuel generalizing statement machine with
  | zero => exact .unfinished
  | succ fuel ih =>
      rw [execute]
      generalize isStarted : machine.record (.statementStarted statement.line) = started
      have advanced : (Task.run statement).advance machine = statement.advance started := by
        rw [Task.advance, isStarted]
      by_cases simple : statement.isSimple = true
      · rw [perform_of_simple simple, Statement.ending]
        rw [Statement.advance_of_simple simple] at advanced
        cases isEffect : statement.effect started with
        | error error =>
            rw [isEffect] at advanced
            exact .fails advanced
        | ok next =>
            rw [isEffect] at advanced
            exact .step advanced .nil
      · cases statement with
        | declare | assign | print => exact absurd rfl simple
        | branch condition whenTrue whenFalse line =>
            rw [perform]
            cases tested : test started.scope condition line with
            | error error =>
                exact .fails (advanced.trans (Statement.advance_branch_of_error tested))
            | ok holds =>
                refine .step (advanced.trans (Statement.advance_branch_of_ok tested)) ?_
                cases holds with
                | true => exact leadsTo_executeAll ih whenTrue started
                | false => exact leadsTo_executeAll ih whenFalse started
        | loop condition body line =>
            refine .step (advanced.trans rfl) ?_
            exact leadsTo_iterate (leadsTo_executeAll ih body) fuel 0 started

def Enough (fuel steps : Nat) : Prop :=
  ∀ statements machine rest, EndsIn steps ⟨.ok (statements.map .run ++ rest), machine⟩ →
    executeBlock fuel statements machine ≠ .unfinished

theorem Enough.iterate {fuel steps : Nat} (enough : Enough fuel steps) {condition : Expression}
    {body : List Statement} {line rounds loopFuel count : Nat} {machine : Machine}
    {rest : List Task} (fewer : rounds ≤ steps) (loopEnough : rounds ≤ loopFuel)
    (ends : EndsIn rounds ⟨.ok (.again condition body line count :: rest), machine⟩) :
    iterate condition (executeBlock fuel body) line loopFuel count machine ≠ .unfinished := by
  induction rounds generalizing loopFuel count machine with
  | zero => exact absurd ends not_endsIn_zero
  | succ rounds ih =>
      cases loopFuel with
      | zero => omega
      | succ loopFuel =>
          rw [WhileLang.iterate]
          cases tested : test machine.scope condition line with
          | error error => exact nofun
          | ok holds =>
              cases holds with
              | false => exact nofun
              | true =>
                  have entered := ends.next
                  rw [Moment.next, Task.advance_again_of_true tested, before_ok,
                    List.append_assoc] at entered
                  have once := enough body machine _ (entered.mono (by omega))
                  have leads := leadsTo_executeAll (leadsTo_execute fuel) body machine
                  cases isOutcome : executeBlock fuel body machine with
                  | finished next =>
                      rw [executeBlock] at isOutcome
                      rw [isOutcome] at leads
                      exact ih (by omega) (by omega) (entered.later (leads _ _ rfl))
                  | failed error next => exact nofun
                  | unfinished => exact absurd isOutcome once

theorem Enough.execute {fuel steps : Nat} (enough : Enough fuel steps) (atMost : steps ≤ fuel)
    {statement : Statement} {machine : Machine} {rest : List Task}
    (ends : EndsIn (steps + 1) ⟨.ok (.run statement :: rest), machine⟩) :
    execute (fuel + 1) statement machine ≠ .unfinished := by
  have entered := ends.next
  rw [Moment.next, Task.advance] at entered
  rw [WhileLang.execute]
  generalize machine.record (.statementStarted statement.line) = started at entered ⊢
  by_cases simple : statement.isSimple = true
  · rw [perform_of_simple simple, Statement.ending]
    cases statement.effect started <;> exact nofun
  · cases statement with
    | declare | assign | print => exact absurd rfl simple
    | branch condition whenTrue whenFalse line =>
        rw [perform]
        cases tested : test started.scope condition line with
        | error error => exact nofun
        | ok holds =>
            rw [Statement.advance_branch_of_ok tested, before_ok] at entered
            have chosen := enough _ _ _ entered
            cases holds with
            | true => exact chosen
            | false => exact chosen
    | loop condition body line =>
        rw [perform]
        exact enough.iterate (Nat.le_refl steps) atMost entered

theorem enough_of_le {fuel steps : Nat} (atMost : steps ≤ fuel) : Enough fuel steps := by
  induction steps generalizing fuel with
  | zero =>
      intro statements machine rest ends
      cases statements with
      | nil => exact nofun
      | cons first others => exact absurd ends not_endsIn_zero
  | succ steps ih =>
      cases fuel with
      | zero => omega
      | succ fuel =>
          intro statements machine rest ends
          have enough : Enough fuel steps := ih (by omega)
          induction statements generalizing machine with
          | nil => exact nofun
          | cons first others othersIh =>
              have firstEnds := enough.execute (by omega) ends
              have leads := leadsTo_execute (fuel + 1) first machine
              rw [executeBlock, executeAll]
              cases isOutcome : execute (fuel + 1) first machine with
              | finished next =>
                  rw [isOutcome] at leads
                  exact othersIh next (ends.later (leads _ _ rfl))
              | failed error next => exact nofun
              | unfinished => exact absurd isOutcome firstEnds

def moment (program : List Statement) (machine : Machine) (count : Nat) : Moment :=
  next^[count] (first program machine)

theorem moment_succ (program : List Statement) (machine : Machine) (count : Nat) :
    moment program machine (count + 1) = (moment program machine count).next :=
  Function.iterate_succ_apply' next count (first program machine)

theorem exists_moment {fuel : Nat} {program : List Statement} {machine : Machine}
    (ends : executeBlock fuel program machine ≠ .unfinished) :
    ∃ count, (moment program machine count).outcome = executeBlock fuel program machine := by
  have leads := leadsTo_executeAll (leadsTo_execute fuel) program machine
  obtain ⟨later, isLater, isOutcome⟩ := Outcome.exists_moment ends
  obtain ⟨count, isLast⟩ := leads [] later isLater
  rw [List.append_nil] at isLast
  refine ⟨count, ?_⟩
  rw [moment, first, isLast, isOutcome]

theorem executeBlock_of_moment {fuel count : Nat} {program : List Statement} {machine : Machine}
    (ends : (moment program machine count).outcome ≠ .unfinished) (atMost : count ≤ fuel) :
    executeBlock fuel program machine = (moment program machine count).outcome := by
  have finds : executeBlock fuel program machine ≠ .unfinished := by
    refine enough_of_le atMost program machine [] ?_
    rw [List.append_nil]
    exact ends
  obtain ⟨other, isLast⟩ := exists_moment finds
  have otherEnds : EndsIn other (first program machine) := by
    rw [EndsIn, ← moment, isLast]
    exact finds
  rw [← isLast, moment, moment, ← otherEnds.iterate count, Nat.add_comm, EndsIn.iterate ends]

end WhileLang
