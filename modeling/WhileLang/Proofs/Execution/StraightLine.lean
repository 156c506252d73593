import WhileLang.Proofs.Execution.Moments
import WhileLang.Proofs.Occurrence

/-!
Branches and loops only choose which simple statements are run, and in which order. So at every
moment of a run the scope and the console are those that a list of simple statements of the program
leads to, and a run fails either with the next such statement, before it has changed anything, or
with a condition.
-/

namespace WhileLang

variable {program : List Statement} {machine : Machine}

def Task.origin : Task → Statement
  | run statement => statement
  | again condition body line _ => .loop condition body line

theorem Statement.effect_events (statement : Statement) (machine : Machine)
    (events : Array Event) :
    statement.effect { machine with events } =
      (statement.effect machine).map fun next => { next with events } := by
  cases statement with
  | declare name value line =>
      simp only [effect]
      cases evaluate machine.scope value <;> rfl
  | assign name value line =>
      simp only [effect]
      split
      · cases evaluate machine.scope value <;> rfl
      · rfl
  | print value line =>
      simp only [effect]
      cases evaluate machine.scope value with
      | error error => rfl
      | ok value =>
          simp only [bind, Except.bind]
          cases machine.console.write? value.text <;> rfl
  | branch condition whenTrue whenFalse line => rfl
  | loop condition body line => rfl

theorem executeAll_append {step : Statement → Machine → Outcome} {path others : List Statement}
    {last : Machine} (finished : executeAll step path machine = .finished last) :
    executeAll step (path ++ others) machine = executeAll step others last := by
  induction path generalizing machine with
  | nil =>
      obtain rfl := Outcome.finished.inj finished
      rfl
  | cons first rest ih =>
      rw [executeAll] at finished
      rw [List.cons_append, executeAll]
      cases isOutcome : step first machine with
      | finished next =>
          rw [isOutcome] at finished
          exact ih finished
      | failed error next =>
          rw [isOutcome] at finished
          cases finished
      | unfinished =>
          rw [isOutcome] at finished
          cases finished

theorem execute_of_simple {statement : Statement} (simple : statement.isSimple = true)
    (machine : Machine) :
    execute 1 statement machine =
      statement.ending (machine.record (.statementStarted statement.line)) := by
  rw [execute, perform_of_simple simple]

/-- Simple statements of a program that lead from one machine to another, events apart. -/
def Passes (program : List Statement) (machine later : Machine) : Prop :=
  ∃ path : List Statement,
    (∀ statement ∈ path, statement.isSimple = true ∧ statement.Occurs program) ∧
      ∃ events, executeBlock 1 path machine = .finished { later with events }

theorem Passes.refl (program : List Statement) (machine : Machine) :
    Passes program machine machine :=
  ⟨[], by simp, machine.events, rfl⟩

theorem Passes.of_events {later : Machine} (passes : Passes program machine later)
    (events : Array Event) : Passes program machine { later with events } := passes

theorem Passes.snoc {later next : Machine} (passes : Passes program machine later)
    {statement : Statement} (simple : statement.isSimple = true)
    (occurs : statement.Occurs program) (isEffect : statement.effect later = .ok next) :
    Passes program machine next := by
  obtain ⟨path, sources, events, finished⟩ := passes
  refine ⟨path ++ [statement], ?_, events.push (.statementStarted statement.line), ?_⟩
  · intro other isMember
    rcases List.mem_append.mp isMember with inPath | isLast
    · exact sources other inPath
    · obtain rfl := List.mem_singleton.mp isLast
      exact ⟨simple, occurs⟩
  · have ended : execute 1 statement { later with events } =
        .finished { next with events := events.push (.statementStarted statement.line) } := by
      rw [execute_of_simple simple, Statement.ending, Machine.record, statement.effect_events later,
        isEffect]
      rfl
    rw [executeBlock, executeAll_append finished, executeAll, ended]
    rfl

/-- What goes wrong on a machine: a simple statement of the program, or a condition. -/
def Fails (program : List Statement) (machine : Machine) (error : Error) : Prop :=
  ∃ statement : Statement, statement.Occurs program ∧
    if statement.isSimple then statement.effect machine = .error error
    else test machine.scope statement.expression statement.line = .error error

structure Moment.Accounted (program : List Statement) (start : Machine) (moment : Moment) :
    Prop where
  passes : Passes program start moment.machine
  remaining : ∀ tasks, moment.remaining = .ok tasks →
    ∀ task ∈ tasks, task.origin.Occurs program
  failure : ∀ error, moment.remaining = .error error → Fails program moment.machine error

namespace Moment.Accounted

variable {later : Machine}

theorem of_ok {tasks : List Task} (passes : Passes program machine later)
    (occur : ∀ task ∈ tasks, task.origin.Occurs program) :
    Accounted program machine ⟨.ok tasks, later⟩ where
  passes := passes
  remaining others isTasks := by
    obtain rfl := Except.ok.inj isTasks
    exact occur
  failure := nofun

theorem of_error {error : Error} (passes : Passes program machine later)
    (fails : Fails program later error) : Accounted program machine ⟨.error error, later⟩ where
  passes := passes
  remaining := nofun
  failure other isError := by
    obtain rfl := Except.error.inj isError
    exact fails

theorem first (program : List Statement) (machine : Machine) :
    (Moment.first program machine).Accounted program machine := by
  refine of_ok (.refl program machine) ?_
  intro task isMember
  obtain ⟨statement, inProgram, rfl⟩ := List.mem_map.mp isMember
  exact .here inProgram

theorem advance {task : Task} (passes : Passes program machine later)
    (occurs : task.origin.Occurs program) :
    (task.advance later).Accounted program machine := by
  cases task with
  | run statement =>
      have started := passes.of_events (later.events.push (.statementStarted statement.line))
      rw [Task.advance, Machine.record]
      generalize { later with events := _ } = now at started ⊢
      by_cases simple : statement.isSimple = true
      · rw [Statement.advance_of_simple simple]
        cases isEffect : statement.effect now with
        | error error =>
            refine of_error started ⟨statement, occurs, ?_⟩
            rw [if_pos simple]
            exact isEffect
        | ok next => exact of_ok (started.snoc simple occurs isEffect) (List.forall_mem_nil _)
      · cases statement with
        | declare | assign | print => exact absurd rfl simple
        | branch condition whenTrue whenFalse line =>
            cases tested : test now.scope condition line with
            | error error =>
                rw [Statement.advance_branch_of_error tested]
                exact of_error started ⟨_, occurs, tested⟩
            | ok holds =>
                rw [Statement.advance_branch_of_ok tested]
                refine of_ok started ?_
                intro task isMember
                obtain ⟨inner, isInner, rfl⟩ := List.mem_map.mp isMember
                cases holds with
                | true => exact occurs.inside (.inl isInner)
                | false => exact occurs.inside (.inr isInner)
        | loop condition body line =>
            refine of_ok started ?_
            intro task isMember
            obtain rfl := List.mem_singleton.mp isMember
            exact occurs
  | again condition body line count =>
      cases tested : test later.scope condition line with
      | error error =>
          rw [Task.advance_again_of_error tested]
          exact of_error passes ⟨_, occurs, tested⟩
      | ok holds =>
          cases holds with
          | false =>
              rw [Task.advance_again_of_false tested]
              exact of_ok (passes.of_events _) (List.forall_mem_nil _)
          | true =>
              rw [Task.advance_again_of_true tested]
              refine of_ok passes ?_
              intro task isMember
              rcases List.mem_append.mp isMember with inBody | isLast
              · obtain ⟨inner, isInner, rfl⟩ := List.mem_map.mp inBody
                exact occurs.inside (.inl isInner)
              · obtain rfl := List.mem_singleton.mp isLast
                exact occurs

theorem before {moment : Moment} (accounted : moment.Accounted program machine)
    {rest : List Task} (occur : ∀ task ∈ rest, task.origin.Occurs program) :
    (moment.before rest).Accounted program machine := by
  rcases moment with ⟨error | tasks, later⟩
  · exact of_error accounted.passes (accounted.failure error rfl)
  · refine of_ok accounted.passes ?_
    intro task isMember
    rcases List.mem_append.mp isMember with inTasks | inRest
    · exact accounted.remaining tasks rfl task inTasks
    · exact occur task inRest

theorem next {moment : Moment} (accounted : moment.Accounted program machine) :
    moment.next.Accounted program machine := by
  rcases moment with ⟨error | _ | ⟨task, rest⟩, later⟩
  · exact accounted
  · exact accounted
  · have occur := accounted.remaining _ rfl
    have advanced := advance accounted.passes (occur task List.mem_cons_self)
    exact advanced.before fun other isMember => occur other (List.mem_cons_of_mem task isMember)

end Moment.Accounted

theorem moment_accounted (program : List Statement) (machine : Machine) (count : Nat) :
    (moment program machine count).Accounted program machine := by
  induction count with
  | zero => exact .first program machine
  | succ count ih =>
      rw [moment_succ]
      exact ih.next

theorem Outcome.ne_unfinished {outcome : Outcome} (ended : outcome.machine? = some machine) :
    outcome ≠ .unfinished := by
  rintro rfl
  cases ended

theorem executeBlock_accounted {fuel : Nat} {final : Machine}
    (ended : (executeBlock fuel program machine).machine? = some final) :
    Passes program machine final ∧
      ∀ error, (executeBlock fuel program machine).error? = some error →
        Fails program final error := by
  obtain ⟨count, isOutcome⟩ := exists_moment (Outcome.ne_unfinished ended)
  have accounted := moment_accounted program machine count
  rw [← isOutcome] at ended ⊢
  obtain rfl := Moment.machine_of_outcome ended
  refine ⟨accounted.passes, ?_⟩
  intro error failed
  exact accounted.failure error (Moment.remaining_of_outcome failed)

/-- A block that ends does so as a list of its simple statements would, run one after another from
the same scope and console. If it fails, then with an error that one more of them gives, without a
change to scope or console, or that the condition of one of its branches or loops gives. -/
theorem executeBlock_straight {fuel : Nat} {final : Machine}
    (ended : (executeBlock fuel program machine).machine? = some final) :
    ∃ path : List Statement,
      (∀ statement ∈ path, statement.isSimple = true ∧ statement.Occurs program) ∧
      (∃ last, executeBlock 1 path machine = .finished last ∧ last.scope = final.scope ∧
        last.console = final.console) ∧
      ∀ error, (executeBlock fuel program machine).error? = some error →
        (∃ statement : Statement, statement.isSimple = true ∧ statement.Occurs program ∧
          ∃ last, execute 1 statement final = .failed error last ∧ last.scope = final.scope ∧
            last.console = final.console) ∨
        ∃ statement : Statement, statement.isSimple = false ∧ statement.Occurs program ∧
          test final.scope statement.expression statement.line = .error error := by
  obtain ⟨⟨path, sources, events, finished⟩, failure⟩ := executeBlock_accounted ended
  refine ⟨path, sources, ⟨_, finished, rfl, rfl⟩, ?_⟩
  intro error isError
  obtain ⟨statement, occurs, fails⟩ := failure error isError
  cases simple : statement.isSimple with
  | true =>
      rw [simple, if_pos rfl] at fails
      refine .inl ⟨statement, simple, occurs, ?_⟩
      rw [execute_of_simple simple, Statement.ending, Machine.record, statement.effect_events final,
        fails]
      exact ⟨_, rfl, rfl, rfl⟩
  | false =>
      rw [simple, if_neg Bool.false_ne_true] at fails
      exact .inr ⟨statement, simple, occurs, fails⟩

/-- `let x = 0; while (x < 2) { print x; x = x + 1; } y = x;`, a statement on each line. -/
def counting : List Statement :=
  [.declare "x" (.literal (.number 0) 1) 1,
    .loop (.binary .less (.reference "x" 2) (.literal (.number 2) 2) 2)
      [.print (.reference "x" 3) 3,
        .assign "x" (.binary .add (.reference "x" 4) (.literal (.number 1) 4) 4) 4] 2,
    .assign "y" (.reference "x" 5) 5]

theorem executeBlock_straight_counting :
    (executeBlock 4 counting {}).error? = some { line := 5, fault := .unknownVariable "y" } ∧
      ∃ final, (executeBlock 4 counting {}).machine? = some final ∧
        final.console.lines.toList = ["0", "1"] ∧
        ∃ path : List Statement,
          (∀ statement ∈ path, statement.isSimple = true ∧ statement.Occurs counting) ∧
          ∃ last, executeBlock 1 path {} = .finished last ∧ last.scope = final.scope ∧
            last.console = final.console := by
  have printed : (executeBlock 4 counting {}).machine?.map (·.console.lines.toList) =
      some ["0", "1"] := by decide +kernel
  obtain ⟨final, ended, isPrinted⟩ := Option.map_eq_some_iff.mp printed
  obtain ⟨path, sources, reached, _⟩ := executeBlock_straight ended
  exact ⟨by decide +kernel, final, ended, isPrinted, path, sources, reached⟩

end WhileLang
