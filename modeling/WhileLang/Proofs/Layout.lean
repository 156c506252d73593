import Mathlib.Data.List.Basic
import WhileLang.Proofs.Execution.Lines
import WhileLang.Proofs.Parse.Lines

/-!
Blanks, comments and line ends matter only as far as they separate tokens. Two sources with the same
tokens have the same program and the same run, up to the lines in trees, errors and events.
-/

namespace WhileLang

theorem parseProgram_of_tokens {source : String} {tokens : List Located}
    (scanned : tokenize source = .ok tokens) :
    parseProgram source = Parse.checkedStatements tokens := by
  simp only [parseProgram, scanned]
  rfl

theorem parseProgram_eq_up_to_lines {source other : String} {tokens otherTokens : List Located}
    (scanned : tokenize source = .ok tokens) (otherScanned : tokenize other = .ok otherTokens)
    (same : tokens.map Located.token = otherTokens.map Located.token) (line : Nat) :
    moveProgram (fun _ => line) (parseProgram source) =
      moveProgram (fun _ => line) (parseProgram other) := by
  rw [parseProgram_of_tokens scanned, parseProgram_of_tokens otherScanned,
    ← Parse.checkedStatements_move, ← Parse.checkedStatements_move, map_move_eq_of_tokens same]

theorem runSource_move_congr {place : Nat → Nat} {source other : String}
    (same : moveProgram place (parseProgram source) = moveProgram place (parseProgram other))
    (fuel : Nat) (console : Console) :
    (runSource fuel source console).move place = (runSource fuel other console).move place := by
  simp only [runSource]
  cases parsed : parseProgram source with
  | error error =>
      cases otherParsed : parseProgram other with
      | error otherError =>
          rw [parsed, otherParsed] at same
          have sameError : error.move place = otherError.move place := Except.error.inj same
          simp only [Outcome.move, sameError]
      | ok otherProgram =>
          rw [parsed, otherParsed] at same
          cases same
  | ok program =>
      cases otherParsed : parseProgram other with
      | error otherError =>
          rw [parsed, otherParsed] at same
          cases same
      | ok otherProgram =>
          rw [parsed, otherParsed] at same
          have sameProgram : program.map (Statement.move place) =
              otherProgram.map (Statement.move place) := Except.ok.inj same
          simp only [← runProgram_move, sameProgram]

theorem Outcome.move_eq_unfinished_iff {place : Nat → Nat} {outcome : Outcome} :
    outcome.move place = .unfinished ↔ outcome = .unfinished := by
  cases outcome <;> simp [move]

/-- Two sources with the same tokens parse alike and run alike, whatever the console. With all lines
set to zero the trees or the errors are equal; so are the outcomes of the two runs, with the scope,
the printed lines and the fault in them, and one run ends if the other does. -/
theorem same_tokens_same_run {source other : String} {tokens otherTokens : List Located}
    (scanned : tokenize source = .ok tokens) (otherScanned : tokenize other = .ok otherTokens)
    (same : tokens.map Located.token = otherTokens.map Located.token) :
    moveProgram (fun _ => 0) (parseProgram source) =
        moveProgram (fun _ => 0) (parseProgram other) ∧
      ∀ console : Console,
        (∀ fuel, (runSource fuel source console).move (fun _ => 0) =
          (runSource fuel other console).move (fun _ => 0)) ∧
        ((∃ fuel, runSource fuel source console ≠ .unfinished) ↔
          ∃ fuel, runSource fuel other console ≠ .unfinished) := by
  have parsed := parseProgram_eq_up_to_lines scanned otherScanned same 0
  refine ⟨parsed, fun console => ?_⟩
  have run := fun fuel => runSource_move_congr parsed fuel console
  refine ⟨run, exists_congr fun fuel => not_congr ?_⟩
  have sourceEnds : (runSource fuel source console).move (fun _ => 0) = .unfinished ↔ _ :=
    Outcome.move_eq_unfinished_iff
  rw [← sourceEnds, run fuel]
  exact Outcome.move_eq_unfinished_iff

theorem same_tokens_same_run_spread :
    (runSource 2 "print 1\n+ true;" {}).move (fun _ => 0) =
        (runSource 2 "print 1.0 + /* one line */ true;" {}).move (fun _ => 0) ∧
      runSource 2 "print 1\n+ true;" {} ≠ runSource 2 "print 1.0 + /* one line */ true;" {} := by
  have scanned : tokenize "print 1\n+ true;" =
      .ok [⟨.keyword .printWord, 1⟩, ⟨.number 1, 1⟩, ⟨.operator .add, 2⟩, ⟨.boolean true, 2⟩,
        ⟨.semicolon, 2⟩] := by decide +kernel
  have otherScanned : tokenize "print 1.0 + /* one line */ true;" =
      .ok [⟨.keyword .printWord, 1⟩, ⟨.number 1, 1⟩, ⟨.operator .add, 1⟩, ⟨.boolean true, 1⟩,
        ⟨.semicolon, 1⟩] := by decide +kernel
  have alike := same_tokens_same_run scanned otherScanned rfl
  have apart : (runSource 2 "print 1\n+ true;" {}).error? ≠
      (runSource 2 "print 1.0 + /* one line */ true;" {}).error? := by decide +kernel
  exact ⟨(alike.2 {}).1 2, fun same => apart (congrArg Outcome.error? same)⟩

end WhileLang
