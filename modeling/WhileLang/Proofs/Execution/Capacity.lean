import Mathlib.Data.List.Infix
import WhileLang.Proofs.Execution.StraightLine

/-!
A console that is full only cuts a run short. Up to the first refused line the run goes in step with
the run on a console that takes every line; there it fails, on the line of the print statement, with
everything before that printed and the scope as it is in the other run at that moment.
-/

namespace WhileLang

theorem Statement.effect_console {statement : Statement}
    (quiet : ∀ value line, statement ≠ .print value line) (machine : Machine) (console : Console) :
    statement.effect { machine with console } =
      (statement.effect machine).map fun next => { next with console } := by
  cases statement with
  | declare name value line =>
      simp only [effect]
      cases evaluate machine.scope value <;> rfl
  | assign name value line =>
      simp only [effect]
      split
      · cases evaluate machine.scope value <;> rfl
      · rfl
  | print value line => exact absurd rfl (quiet value line)
  | branch condition whenTrue whenFalse line => rfl
  | loop condition body line => rfl

namespace Moment

def on (console : Console) (moment : Moment) : Moment :=
  { moment with machine := { moment.machine with console } }

theorem advance_on {statement : Statement} (quiet : ∀ value line, statement ≠ .print value line)
    (machine : Machine) (console : Console) :
    statement.advance { machine with console } = (statement.advance machine).on console := by
  by_cases simple : statement.isSimple = true
  · rw [Statement.advance_of_simple simple, Statement.advance_of_simple simple,
      Statement.effect_console quiet]
    cases statement.effect machine <;> rfl
  · cases statement with
    | declare | assign | print => exact absurd rfl simple
    | branch condition whenTrue whenFalse line =>
        simp only [Statement.advance]
        cases test machine.scope condition line <;> rfl
    | loop condition body line => rfl

theorem next_on (moment : Moment) :
    (∀ console, (moment.on console).next = moment.next.on console) ∨
      ∃ value line rest result, moment.remaining = .ok (.run (.print value line) :: rest) ∧
        evaluate moment.machine.scope value = .ok result := by
  rcases moment with ⟨error | _ | ⟨task, rest⟩, machine⟩
  · exact .inl fun console => rfl
  · exact .inl fun console => rfl
  · cases task with
    | run statement =>
        by_cases quiet : ∀ value line, statement ≠ .print value line
        · left
          intro console
          exact congrArg (before · rest) (advance_on quiet (machine.record _) console)
        · push Not at quiet
          obtain ⟨value, line, rfl⟩ := quiet
          cases evaluated : evaluate machine.scope value with
          | error error =>
              left
              intro console
              simp only [on, next, Task.advance, Statement.advance, Statement.effect,
                Machine.record, evaluated]
              rfl
          | ok result => exact .inr ⟨value, line, rest, result, rfl, evaluated⟩
    | again condition body line count =>
        left
        intro console
        simp only [on, next, Task.advance]
        cases test machine.scope condition line with
        | error error => rfl
        | ok holds => cases holds <;> rfl

section

variable {moment : Moment} {value : Expression} {line : Nat} {rest : List Task} {result : Value}

theorem next_print (isNext : moment.remaining = .ok (.run (.print value line) :: rest))
    (evaluated : evaluate moment.machine.scope value = .ok result) {console : Console}
    (written : moment.machine.console.write? result.text = some console) :
    moment.next = on console ⟨.ok rest, moment.machine.record (.statementStarted line)⟩ := by
  obtain ⟨remaining, machine⟩ := moment
  subst isNext
  simp only [next, Task.advance, Statement.advance, Statement.effect, Machine.record, evaluated,
    bind, Except.bind, written]
  rfl

theorem next_print_of_refused (isNext : moment.remaining = .ok (.run (.print value line) :: rest))
    (evaluated : evaluate moment.machine.scope value = .ok result)
    (refused : moment.machine.console.write? result.text = none) :
    moment.next =
      ⟨.error { line, fault := .outputClosed },
        moment.machine.record (.statementStarted line)⟩ := by
  obtain ⟨remaining, machine⟩ := moment
  subst isNext
  simp only [next, Task.advance, Statement.advance, Statement.effect, Machine.record, evaluated,
    bind, Except.bind, refused]
  rfl

end

end Moment

structure Console.Unlimited (console : Console) : Prop where
  capacity : console.capacity = none
  accepts : ∀ lines line, console.accepts lines line = true

theorem Console.Unlimited.write? {console : Console} (unlimited : console.Unlimited)
    (line : String) :
    console.write? line = some { console with lines := console.lines.push line } := by
  rw [Console.write?, unlimited.capacity, unlimited.accepts]
  rfl

def Console.limit (capacity : Nat) (console : Console) : Console :=
  { console with capacity := some capacity }

theorem Console.Unlimited.write?_limit {console : Console} (unlimited : console.Unlimited)
    (capacity : Nat) (line : String) :
    (console.limit capacity).write? line =
      if console.lines.size < capacity then
        some (limit capacity { console with lines := console.lines.push line })
      else none := by
  simp only [Console.write?, limit, Option.all_some, unlimited.accepts, Bool.and_true]
  by_cases room : console.lines.size < capacity <;> simp [room]

def Machine.limit (capacity : Nat) (machine : Machine) : Machine :=
  { machine with console := machine.console.limit capacity }

def Outcome.limit (capacity : Nat) : Outcome → Outcome
  | finished machine => .finished (machine.limit capacity)
  | failed error machine => .failed error (machine.limit capacity)
  | unfinished => .unfinished

theorem Outcome.limit_eq_unfinished {capacity : Nat} {outcome : Outcome}
    (unfinished : outcome.limit capacity = .unfinished) : outcome = .unfinished := by
  cases outcome with
  | finished | failed => cases unfinished
  | unfinished => rfl

namespace Moment

def limit (capacity : Nat) (moment : Moment) : Moment :=
  { moment with machine := moment.machine.limit capacity }

theorem outcome_limit (capacity : Nat) (moment : Moment) :
    (moment.limit capacity).outcome = moment.outcome.limit capacity := by
  rcases moment with ⟨_ | _ | ⟨task, rest⟩, machine⟩ <;> rfl

/-- The next step prints a line, unless there is a limit that the lines so far have reached. -/
structure Prints (moment : Moment) (line : Nat) (text : String) : Prop where
  isNext : ∃ value rest, moment.remaining = .ok (.run (.print value line) :: rest)
  console : moment.next.machine.console =
    { moment.machine.console with lines := moment.machine.console.lines.push text }
  limited : ∀ capacity, (moment.limit capacity).next =
    if moment.machine.console.lines.size < capacity then moment.next.limit capacity
    else ⟨.error { line, fault := .outputClosed },
      (moment.machine.record (.statementStarted line)).limit capacity⟩

theorem next_limit {moment : Moment} (unlimited : moment.machine.console.Unlimited) :
    (moment.next.machine.console = moment.machine.console ∧
        ∀ capacity, (moment.limit capacity).next = moment.next.limit capacity) ∨
      ∃ line text, moment.Prints line text := by
  rcases moment.next_on with quiet | ⟨value, line, rest, result, isNext, evaluated⟩
  · -- A step that ignores the console does so for its own one too, and hence keeps it.
    have kept : moment.next.machine.console = moment.machine.console :=
      congrArg (·.machine.console) (quiet moment.machine.console)
    refine .inl ⟨kept, ?_⟩
    intro capacity
    rw [limit, limit, Machine.limit, Machine.limit, kept]
    exact quiet (moment.machine.console.limit capacity)
  · have printed := next_print isNext evaluated (unlimited.write? result.text)
    refine .inr ⟨line, result.text, ⟨value, rest, isNext⟩, ?_, ?_⟩
    · rw [printed]
      rfl
    · intro capacity
      have limitedNext : (moment.limit capacity).remaining = _ := isNext
      have written := unlimited.write?_limit capacity result.text
      by_cases room : moment.machine.console.lines.size < capacity
      · rw [if_pos room] at written ⊢
        rw [next_print limitedNext evaluated written, printed]
        rfl
      · rw [if_neg room] at written ⊢
        exact next_print_of_refused limitedNext evaluated written

theorem next_unlimited {moment : Moment} (unlimited : moment.machine.console.Unlimited) :
    moment.next.machine.console.Unlimited := by
  rcases next_limit unlimited with ⟨kept, _⟩ | ⟨line, text, prints⟩
  · rw [kept]
    exact unlimited
  · rw [prints.console]
    exact ⟨unlimited.capacity, unlimited.accepts⟩

theorem lines_next {moment : Moment} (unlimited : moment.machine.console.Unlimited) :
    moment.machine.console.lines.toList <+: moment.next.machine.console.lines.toList := by
  rcases next_limit unlimited with ⟨kept, _⟩ | ⟨line, text, prints⟩
  · rw [kept]
  · rw [prints.console, Array.toList_push]
    exact List.prefix_append _ _

end Moment

section

variable {program : List Statement} {machine : Machine} {capacity count : Nat}

def printed (program : List Statement) (machine : Machine) (count : Nat) : List String :=
  (moment program machine count).machine.console.lines.toList

theorem moment_unlimited (unlimited : machine.console.Unlimited) (count : Nat) :
    (moment program machine count).machine.console.Unlimited := by
  induction count with
  | zero => exact unlimited
  | succ count ih =>
      rw [moment_succ]
      exact Moment.next_unlimited ih

theorem printed_succ (unlimited : machine.console.Unlimited) (count : Nat) :
    printed program machine count <+: printed program machine (count + 1) := by
  rw [printed, printed, moment_succ]
  exact Moment.lines_next (moment_unlimited unlimited count)

theorem printed_mono (unlimited : machine.console.Unlimited) {later : Nat}
    (atMost : count ≤ later) : printed program machine count <+: printed program machine later := by
  induction atMost with
  | refl => exact List.prefix_rfl
  | step _ ih => exact ih.trans (printed_succ unlimited _)

theorem printed_prints {line : Nat} {text : String}
    (prints : (moment program machine count).Prints line text) :
    printed program machine (count + 1) = printed program machine count ++ [text] := by
  rw [printed, moment_succ, prints.console, Array.toList_push]
  rfl

theorem moment_limit (unlimited : machine.console.Unlimited)
    (fits : (printed program machine count).length ≤ capacity) :
    moment program (machine.limit capacity) count =
      (moment program machine count).limit capacity := by
  induction count with
  | zero => rfl
  | succ count ih =>
      have grows : (printed program machine count).length ≤
          (printed program machine (count + 1)).length := (printed_succ unlimited count).length_le
      rw [moment_succ, moment_succ, ih (by omega)]
      rcases Moment.next_limit (moment_unlimited unlimited count) with
        ⟨_, limited⟩ | ⟨line, text, prints⟩
      · exact limited capacity
      · rw [printed_prints prints, List.length_append, List.length_singleton] at fits
        have room : (moment program machine count).machine.console.lines.size < capacity := fits
        rw [prints.limited, if_pos room]

theorem exists_prints (unlimited : machine.console.Unlimited)
    (starts : (printed program machine 0).length ≤ capacity)
    (overflows : capacity < (printed program machine count).length) :
    ∃ step < count, (printed program machine step).length = capacity ∧
      ∃ line text, (moment program machine step).Prints line text := by
  induction count with
  | zero => omega
  | succ count ih =>
      by_cases earlier : capacity < (printed program machine count).length
      · obtain ⟨step, isEarlier, found⟩ := ih earlier
        exact ⟨step, by omega, found⟩
      · rcases Moment.next_limit (moment_unlimited unlimited count) with
          ⟨kept, _⟩ | ⟨line, text, prints⟩
        · rw [printed, moment_succ, kept] at overflows
          exact absurd overflows earlier
        · rw [printed_prints prints, List.length_append, List.length_singleton] at overflows
          exact ⟨count, by omega, by omega, line, text, prints⟩

theorem executeBlock_limit_of_fits (unlimited : machine.console.Unlimited)
    (ends : (moment program machine count).outcome ≠ .unfinished)
    (fits : (printed program machine count).length ≤ capacity) {fuel : Nat}
    (atMost : count ≤ fuel) :
    executeBlock fuel program (machine.limit capacity) =
      (moment program machine count).outcome.limit capacity := by
  have alike := moment_limit unlimited fits
  rw [← Moment.outcome_limit, ← alike]
  refine executeBlock_of_moment ?_ atMost
  rw [alike, Moment.outcome_limit]
  intro unfinished
  exact ends (Outcome.limit_eq_unfinished unfinished)

theorem executeBlock_limit_of_full (unlimited : machine.console.Unlimited)
    (full : (printed program machine count).length = capacity) {line : Nat} {text : String}
    (prints : (moment program machine count).Prints line text) {fuel : Nat}
    (isMore : count < fuel) :
    executeBlock fuel program (machine.limit capacity) =
      .failed { line, fault := .outputClosed }
        (((moment program machine count).machine.record (.statementStarted line)).limit
          capacity) := by
  have noRoom : ¬ (moment program machine count).machine.console.lines.size < capacity := by
    rw [printed, Array.length_toList] at full
    omega
  have fails : moment program (machine.limit capacity) (count + 1) =
      ⟨.error { line, fault := .outputClosed },
        ((moment program machine count).machine.record (.statementStarted line)).limit
          capacity⟩ := by
    rw [moment_succ, moment_limit unlimited full.le, prints.limited, if_neg noRoom]
  have ends : (moment program (machine.limit capacity) (count + 1)).outcome ≠ .unfinished := by
    rw [fails]
    exact nofun
  rw [executeBlock_of_moment ends isMore, fails]
  rfl

end

/-- A run on a console with a capacity, against one that ended on a console that takes every line.
If the lines fit, both end alike. If not, the run fails at the print statement that writes the first
line beyond the capacity, with the lines before it printed and with the scope that the other run has
at that moment. -/
theorem executeBlock_limited {fuel capacity : Nat} {program : List Statement} {scope : Scope}
    {events : Array Event} {final : Machine}
    (ended : (executeBlock fuel program { scope, events }).machine? = some final) :
    (final.console.lines.size ≤ capacity →
      ∃ enough, ∀ more ≥ enough,
        executeBlock more program { scope, events, console := { capacity := some capacity } } =
          (executeBlock fuel program { scope, events }).limit capacity) ∧
    (capacity < final.console.lines.size →
      ∃ count value line rest,
        (moment program { scope, events } count).remaining =
          .ok (.run (.print value line) :: rest) ∧
        printed program { scope, events } count = final.console.lines.toList.take capacity ∧
        printed program { scope, events } (count + 1) =
          final.console.lines.toList.take (capacity + 1) ∧
        ∃ enough last,
          (∀ more ≥ enough,
            executeBlock more program { scope, events, console := { capacity := some capacity } } =
              .failed { line, fault := .outputClosed } last) ∧
          last.scope = (moment program { scope, events } count).machine.scope ∧
          last.console.lines.toList = final.console.lines.toList.take capacity) := by
  generalize isStart : ({ scope, events } : Machine) = start at ended ⊢
  have isLimited : ({ scope, events, console := { capacity := some capacity } } : Machine) =
      start.limit capacity := by
    rw [← isStart]
    rfl
  have unlimited : start.console.Unlimited := by
    rw [← isStart]
    exact ⟨rfl, fun lines line => rfl⟩
  have empty : printed program start 0 = [] := by
    rw [← isStart]
    rfl
  rw [isLimited]
  obtain ⟨total, isOutcome⟩ := exists_moment (Outcome.ne_unfinished ended)
  have isFinal : (moment program start total).machine = final := by
    refine Moment.machine_of_outcome ?_
    rw [isOutcome, ended]
  have isPrinted : printed program start total = final.console.lines.toList := by
    rw [printed, isFinal]
  rw [← Array.length_toList, ← isPrinted, ← isOutcome]
  constructor
  · intro fits
    have ends : (moment program start total).outcome ≠ .unfinished := by
      rw [isOutcome]
      exact Outcome.ne_unfinished ended
    exact ⟨total, fun more isMore => executeBlock_limit_of_fits unlimited ends fits isMore⟩
  · intro overflows
    obtain ⟨count, isEarlier, full, line, text, prints⟩ :=
      exists_prints unlimited (by rw [empty]; exact Nat.zero_le capacity) overflows
    obtain ⟨value, rest, isNext⟩ := prints.isNext
    have before : printed program start count = (printed program start total).take capacity := by
      rw [← full]
      exact List.prefix_iff_eq_take.mp (printed_mono unlimited isEarlier.le)
    have after : printed program start (count + 1) =
        (printed program start total).take (capacity + 1) := by
      have length : (printed program start (count + 1)).length = capacity + 1 := by
        rw [printed_prints prints, List.length_append, full, List.length_singleton]
      rw [← length]
      exact List.prefix_iff_eq_take.mp (printed_mono unlimited isEarlier)
    exact ⟨count, value, line, rest, isNext, before, after, count + 1, _,
      fun more isMore => executeBlock_limit_of_full unlimited full prints isMore, rfl, before⟩

theorem executeBlock_limited_counting :
    (executeBlock 4 counting { scope := .outermost, events := #[] }).machine?.map
        (·.console.lines.toList) = some ["0", "1"] ∧
      (∃ enough, ∀ more ≥ enough,
        executeBlock more counting
            { scope := .outermost, events := #[], console := { capacity := some 2 } } =
          (executeBlock 4 counting { scope := .outermost, events := #[] }).limit 2) ∧
      (executeBlock 4 counting
          { scope := .outermost, events := #[], console := { capacity := some 1 } }).error? =
        some { line := 3, fault := .outputClosed } ∧
      ∃ line enough last,
        (∀ more ≥ enough,
          executeBlock more counting
              { scope := .outermost, events := #[], console := { capacity := some 1 } } =
            .failed { line, fault := .outputClosed } last) ∧
        last.console.lines.toList = ["0"] := by
  have printed : (executeBlock 4 counting { scope := .outermost, events := #[] }).machine?.map
      (·.console.lines.toList) = some ["0", "1"] := by decide +kernel
  obtain ⟨final, ended, isPrinted⟩ := Option.map_eq_some_iff.mp printed
  have size : final.console.lines.size = 2 := by
    rw [← Array.length_toList, isPrinted]
    rfl
  have fits := (executeBlock_limited ended).1 size.le
  obtain ⟨_, _, line, _, _, _, _, enough, last, fails, _, isCut⟩ :=
    (executeBlock_limited ended).2 (size.symm ▸ Nat.one_lt_two)
  rw [isPrinted] at isCut
  exact ⟨printed, fits, by decide +kernel, line, enough, last, fails, isCut⟩

end WhileLang
