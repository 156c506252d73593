import WhileLang.Proofs.Acceptance
import WhileLang.Proofs.Layout
import WhileLang.Proofs.Occurrence
import WhileLang.Proofs.Splitting

/-!
Every line that is reported is a line of the source. The lexer counts line ends; all that comes
after it only passes lines on. So a move of lines that leaves the lines of the tokens in place
leaves the program, its errors and the errors of its run as they are, and a move of all lines that
the source does not have shows that none of them carries such a line.
-/

namespace WhileLang

def HasLine (source : String) (line : Nat) : Prop :=
  1 ≤ line ∧ line ≤ 1 + source.toList.count '\n'

instance (source : String) (line : Nat) : Decidable (HasLine source line) :=
  inferInstanceAs (Decidable (_ ∧ _))

def Expression.OnLine (whole : Expression) (line : Nat) : Prop :=
  ∃ part : Expression, part.Occurs whole ∧ part.line = line

inductive OnLine (program : List Statement) : Nat → Prop
  | statement {statement : Statement} : statement.Occurs program → OnLine program statement.line
  | expression {part : Expression} : part.OccursIn program → OnLine program part.line

section

variable {place : Nat → Nat}

theorem Expression.Occurs.move_eq {part whole : Expression} (occurs : part.Occurs whole)
    (fixed : whole.move place = whole) : part.move place = part := by
  induction occurs with
  | here => exact fixed
  | left _ ih => exact ih (Expression.binary.inj fixed).2.1
  | right _ ih => exact ih (Expression.binary.inj fixed).2.2.1

theorem Expression.line_move (part : Expression) : (part.move place).line = place part.line := by
  cases part <;> rfl

theorem Expression.OnLine.place_eq {whole : Expression} {line : Nat} (onLine : whole.OnLine line)
    (fixed : whole.move place = whole) : place line = line := by
  obtain ⟨part, occurs, rfl⟩ := onLine
  calc place part.line
    _ = (part.move place).line := part.line_move.symm
    _ = part.line := by rw [occurs.move_eq fixed]

theorem Statement.expression_move (statement : Statement) :
    (statement.move place).expression = statement.expression.move place := by
  cases statement <;> rfl

theorem Statement.body_move (statement : Statement) :
    (statement.move place).body = statement.body.map (move place) := by
  cases statement with
  | branch | loop => exact moveAll_eq_map place _
  | declare | assign | print => rfl

theorem Statement.otherwise_move (statement : Statement) :
    (statement.move place).otherwise = statement.otherwise.map (move place) := by
  cases statement with
  | branch => exact moveAll_eq_map place _
  | declare | assign | loop | print => rfl

theorem Statement.Occurs.move_eq {statement : Statement} {program : List Statement}
    (occurs : statement.Occurs program) (fixed : program.map (move place) = program) :
    statement.move place = statement := by
  have stays {statement : Statement} {program : List Statement}
      (fixed : program.map (move place) = program) (isMember : statement ∈ program) :
      statement.move place = statement :=
    List.map_inj_left.mp (fixed.trans program.map_id.symm) statement isMember
  induction occurs with
  | here isMember => exact stays fixed isMember
  | @body outer _ isMember _ ih =>
      apply ih
      rw [← body_move, stays fixed isMember]
  | @otherwise outer _ isMember _ ih =>
      apply ih
      rw [← otherwise_move, stays fixed isMember]

theorem OnLine.place_eq {program : List Statement} {line : Nat} (onLine : OnLine program line)
    (fixed : program.map (Statement.move place) = program) : place line = line := by
  cases onLine with
  | @statement statement occurs =>
      calc place statement.line
        _ = (statement.move place).line := (Statement.line_move place statement).symm
        _ = statement.line := by rw [occurs.move_eq fixed]
  | @expression part occursIn =>
      obtain ⟨statement, occurs, inside⟩ := occursIn
      have wholeFixed : statement.expression.move place = statement.expression := by
        rw [← Statement.expression_move, occurs.move_eq fixed]
      exact Expression.OnLine.place_eq ⟨part, inside, rfl⟩ wholeFixed

/-- Tokens whose lines stay where they are have the same program on those lines. -/
theorem Parse.checkedStatements_fixed {tokens : List Located}
    (onPlace : ∀ found ∈ tokens, place found.line = found.line) :
    moveProgram place (checkedStatements tokens) = checkedStatements tokens := by
  rw [← checkedStatements_move, map_move_eq_self onPlace]

theorem moveProgram_eq_self_of_error {error : Error}
    (fixed : moveProgram place (.error error) = .error error) : place error.line = error.line :=
  congrArg Error.line (Except.error.inj fixed)

theorem runProgram_line_fixed {program : List Statement} {fuel : Nat} {console : Console}
    {error : Error} (fixed : program.map (Statement.move place) = program)
    (failed : (runProgram fuel program console).error? = some error) :
    place error.line = error.line := by
  have moved := @runProgram_move place fuel program console
  rw [fixed] at moved
  cases ended : runProgram fuel program console with
  | finished | unfinished =>
      rw [ended] at failed
      cases failed
  | failed other machine =>
      rw [ended] at failed moved
      obtain rfl := Option.some.inj failed
      have sameError : other = other.move place := (Outcome.failed.inj moved).1
      exact (congrArg Error.line sameError).symm

end

namespace Lexicon

theorem Munches.flatten_append {text stop : List Char} {lexemes : List (List Char)}
    (munches : Munches text lexemes stop) : lexemes.flatten ++ stop = text := by
  induction munches with
  | stuck _ => rfl
  | next _ _ ih => rw [List.flatten_cons, List.append_assoc, ih]

theorem Stand.line_range {line : Nat} {lexemes : List (List Char)} {tokens : List Located}
    (stand : Stand line lexemes tokens) {found : Located} (isMember : found ∈ tokens) :
    line ≤ found.line ∧ found.line ≤ line + lexemes.flatten.count '\n' := by
  induction stand with
  | nil => cases isMember
  | passed _ _ ih =>
      rw [List.flatten_cons, List.count_append]
      have range := ih isMember
      omega
  | token _ _ ih =>
      rw [List.flatten_cons, List.count_append]
      rcases List.mem_cons.mp isMember with rfl | inRest
      · exact ⟨Nat.le_refl _, Nat.le_add_right _ _⟩
      · have range := ih inRest
        omega

end Lexicon

open Lexicon

theorem tokenize_lines (source : String) :
    (∀ tokens, tokenize source = .ok tokens → ∀ found ∈ tokens, HasLine source found.line) ∧
      ∀ error, tokenize source = .error error → HasLine source error.line := by
  obtain ⟨lexemes, stop, munches⟩ := exists_munches source.toList
  obtain ⟨others, stand⟩ := munches.exists_stand 1
  have scanned : tokenize source = _ := scan_of_munches munches stand
  have atMost : lexemes.flatten.count '\n' ≤ source.toList.count '\n' := by
    rw [← munches.flatten_append, List.count_append]
    exact Nat.le_add_right _ _
  rw [scanned]
  constructor
  · intro tokens isOk found isMember
    cases stop with
    | nil =>
        obtain rfl := Except.ok.inj isOk
        have range := stand.line_range isMember
        exact ⟨range.1, by omega⟩
    | cons c rest => cases isOk
  · intro error isError
    cases stop with
    | nil => cases isError
    | cons c rest =>
        obtain rfl := Except.error.inj isError
        exact ⟨Nat.le_add_right 1 _, Nat.add_le_add_left atMost 1⟩

def moveStray (source : String) (line : Nat) : Nat :=
  if HasLine source line then line else line + 1

theorem moveStray_eq_iff {source : String} {line : Nat} :
    moveStray source line = line ↔ HasLine source line := by
  simp [moveStray]

theorem parseProgram_fixed {source : String} {tokens : List Located}
    (scanned : tokenize source = .ok tokens) :
    moveProgram (moveStray source) (parseProgram source) = parseProgram source := by
  rw [parseProgram_of_tokens scanned]
  apply Parse.checkedStatements_fixed
  intro found isMember
  exact moveStray_eq_iff.mpr ((tokenize_lines source).1 tokens scanned found isMember)

theorem parseProgram_move_eq {source : String} {program : List Statement}
    (parsed : parseProgram source = .ok program) :
    program.map (Statement.move (moveStray source)) = program := by
  obtain ⟨tokens, scanned, _, _⟩ := parseProgram_steps.mp parsed
  have fixed := parseProgram_fixed scanned
  rw [parsed] at fixed
  exact Except.ok.inj fixed

theorem parseProgram_error_line {source : String} {error : Error}
    (failed : parseProgram source = .error error) : HasLine source error.line := by
  cases scanned : tokenize source with
  | error other =>
      rw [parseProgram, scanned] at failed
      obtain rfl := Except.error.inj failed
      exact (tokenize_lines source).2 _ scanned
  | ok tokens =>
      have fixed := parseProgram_fixed scanned
      rw [failed] at fixed
      exact moveStray_eq_iff.mp (moveProgram_eq_self_of_error fixed)

/-- An error that ends the run of a source, or keeps it from being run, is on a line of the source,
and so is every node of its program. -/
theorem runSource_on_lines (source : String) :
    (∀ fuel console error, (runSource fuel source console).error? = some error →
      HasLine source error.line) ∧
    ∀ program, parseProgram source = .ok program → ∀ line, OnLine program line →
      HasLine source line := by
  constructor
  · intro fuel console error failed
    rw [runSource] at failed
    cases parsed : parseProgram source with
    | error other =>
        rw [parsed] at failed
        obtain rfl := Option.some.inj failed
        exact parseProgram_error_line parsed
    | ok program =>
        rw [parsed] at failed
        have fixed := runProgram_line_fixed (parseProgram_move_eq parsed) failed
        exact moveStray_eq_iff.mp fixed
  · intro program parsed line onLine
    exact moveStray_eq_iff.mp (onLine.place_eq (parseProgram_move_eq parsed))

theorem runSource_on_lines_spread :
    (runSource 2 "print 1\n+\nx;" {}).error? = some { line := 3, fault := .unknownVariable "x" } ∧
      HasLine "print 1\n+\nx;" 3 ∧ ¬ HasLine "print 1\n+\nx;" 4 ∧
      (runSource 2 "print 1;\n@" {}).error? =
        some { line := 2, fault := .unexpected (.character '@') } ∧
      HasLine "print 1;\n@" 2 ∧
      ∃ program, parseProgram "print 1\n+\nx;" = .ok program ∧ OnLine program 2 ∧
        HasLine "print 1\n+\nx;" 2 := by
  have unbound : (runSource 2 "print 1\n+\nx;" {}).error? =
      some { line := 3, fault := .unknownVariable "x" } := by decide +kernel
  have unexpected : (runSource 2 "print 1;\n@" {}).error? =
      some { line := 2, fault := .unexpected (.character '@') } := by decide +kernel
  have scanned : tokenize "print 1\n+\nx;" =
      .ok [⟨.keyword .printWord, 1⟩, ⟨.number 1, 1⟩, ⟨.operator .add, 2⟩, ⟨.identifier "x", 3⟩,
        ⟨.semicolon, 3⟩] := by decide +kernel
  have parsed : parseProgram "print 1\n+\nx;" =
      .ok [.print (.binary .add (.literal (.number 1) 1) (.reference "x" 3) 2) 1] :=
    parseProgram_steps.mpr ⟨_, scanned, rfl, rfl⟩
  have onLine : OnLine [.print (.binary .add (.literal (.number 1) 1) (.reference "x" 3) 2) 1] 2 :=
    .expression ⟨_, .here List.mem_cons_self, .here⟩
  exact ⟨unbound, (runSource_on_lines _).1 _ _ _ unbound, by decide +kernel, unexpected,
    (runSource_on_lines _).1 _ _ _ unexpected, _, parsed, onLine,
    (runSource_on_lines _).2 _ parsed _ onLine⟩

end WhileLang
