import WhileLang.Nesting
import WhileLang.Proofs.Lines
import WhileLang.Proofs.Parse.Outcome

/-!
Lines are carried along by the parsers and never decide anything: on tokens that have been moved to
other lines each parser gives the node, or the error, that it gave before, on the new lines.
-/

namespace WhileLang

theorem Nesting.checkFrom_move (place : Nat → Nat) (depth : Nat) (tokens : List Located) :
    checkFrom depth (tokens.map (Located.move place)) =
      moveResult place id (checkFrom depth tokens) := by
  induction tokens generalizing depth with
  | nil => rfl
  | cons found rest ih =>
      obtain ⟨token, line⟩ := found
      cases token with
      | openParen | openBrace =>
          simp only [List.map_cons, Located.move, checkFrom]
          by_cases room : depth < limit
          · rw [if_pos room, if_pos room]
            exact ih (depth + 1)
          · rw [if_neg room, if_neg room]
            rfl
      | closeParen | closeBrace => exact ih (depth - 1)
      | _ => exact ih depth

namespace Parse

def Moves {α : Type} (place : Nat → Nat) (node : α → α) (parser : Parser α) : Prop :=
  ∀ line tokens, parser (place line) (tokens.map (Located.move place)) =
    moveResult place (Parsed.move place node) (parser line tokens)

variable {place : Nat → Nat}

theorem expect_moves (expected : Token) : Moves place place (expect expected) := by
  intro line tokens
  cases tokens with
  | nil => rfl
  | cons found rest =>
      simp only [List.map_cons, expect, Located.move]
      by_cases same : found.token = expected
      · rw [if_pos same, if_pos same]
        rfl
      · rw [if_neg same, if_neg same]
        rfl

theorem name_moves : Moves place id name := by
  intro line tokens
  cases tokens with
  | nil => rfl
  | cons found rest =>
      obtain ⟨token, tokenLine⟩ := found
      cases token with
      | boolean value => cases value <;> rfl
      | _ => rfl

theorem operand_moves {group : Parser Expression}
    (groupMoves : Moves place (Expression.move place) group) :
    Moves place (Expression.move place) (operand group) := by
  intro line tokens
  cases tokens with
  | nil => rfl
  | cons found rest =>
      obtain ⟨token, tokenLine⟩ := found
      cases token with
      | openParen =>
          simp only [List.map_cons, Located.move, operand]
          rw [groupMoves]
          apply moveResult_bind
          intro inner
          simp only [Parsed.move]
          rw [expect_moves]
          exact moveResult_bind fun close => rfl
      | _ => rfl

theorem joined_moves {rank : Nat} {next : Parser Expression}
    (nextMoves : Moves place (Expression.move place) next) (limit : Nat) (left : Expression)
    (tokens : List Located) :
    joined rank next limit (left.move place) (tokens.map (Located.move place)) =
      moveResult place (Parsed.move place (Expression.move place))
        (joined rank next limit left tokens) := by
  induction limit generalizing left tokens with
  | zero => rfl
  | succ limit ih =>
      cases tokens with
      | nil => rfl
      | cons found rest =>
          obtain ⟨token, line⟩ := found
          cases token with
          | operator op =>
              simp only [List.map_cons, Located.move, joined, Token.operator?]
              by_cases sameRank : op.rank = rank
              · rw [if_pos sameRank, if_pos sameRank, nextMoves]
                apply moveResult_bind
                intro right
                exact ih (.binary op left right.node line) right.rest
              · rw [if_neg sameRank, if_neg sameRank]
                rfl
          | _ => rfl

theorem ranked_moves {limit : Nat} {group : Parser Expression}
    (groupMoves : Moves place (Expression.move place) group) (rank : Nat) :
    Moves place (Expression.move place) (ranked limit group rank) := by
  induction rank with
  | zero => exact operand_moves groupMoves
  | succ rank ih =>
      intro line tokens
      simp only [ranked]
      rw [ih]
      apply moveResult_bind
      intro left
      exact joined_moves ih limit left.node left.rest

theorem expressionWithin_moves (limit : Nat) :
    Moves place (Expression.move place) (expressionWithin limit) := by
  induction limit with
  | zero => exact fun line tokens => rfl
  | succ limit ih => exact ranked_moves ih Operator.loosest

theorem condition_moves (limit : Nat) :
    Moves place (Expression.move place) (condition limit) := by
  intro line tokens
  simp only [condition]
  rw [expect_moves]
  apply moveResult_bind
  intro opened
  simp only [Parsed.move]
  rw [expressionWithin_moves]
  apply moveResult_bind
  intro inner
  simp only [Parsed.move]
  rw [expect_moves]
  exact moveResult_bind fun close => rfl

theorem closingExpression_moves (limit : Nat) :
    Moves place (Expression.move place) (closingExpression limit) := by
  intro line tokens
  simp only [closingExpression]
  rw [expressionWithin_moves]
  apply moveResult_bind
  intro value
  simp only [Parsed.move]
  rw [expect_moves]
  exact moveResult_bind fun close => rfl

section

variable {nested : Parser Statement}

theorem blockRest_moves (nestedMoves : Moves place (Statement.move place) nested)
    (opened limit : Nat) (tokens : List Located) :
    blockRest nested (place opened) limit (tokens.map (Located.move place)) =
      moveResult place (Parsed.move place (List.map (Statement.move place)))
        (blockRest nested opened limit tokens) := by
  induction limit generalizing tokens with
  | zero => rfl
  | succ limit ih =>
      cases tokens with
      | nil => rfl
      | cons found rest =>
          simp only [List.map_cons, blockRest]
          by_cases closes : found.token = .closeBrace
          · rw [if_pos closes]
            exact if_pos closes
          · rw [if_neg closes]
            refine (if_neg closes).trans ?_
            have firstMoves := nestedMoves found.line (found :: rest)
            simp only [List.map_cons, Located.move] at firstMoves ⊢
            rw [firstMoves]
            apply moveResult_bind
            intro first
            simp only [Parsed.move]
            rw [ih]
            exact moveResult_bind fun others => rfl

theorem blockOf_moves (nestedMoves : Moves place (Statement.move place) nested) (limit : Nat) :
    Moves place (List.map (Statement.move place)) (blockOf limit nested) := by
  intro line tokens
  simp only [blockOf]
  rw [expect_moves]
  apply moveResult_bind
  intro opened
  exact blockRest_moves nestedMoves opened.node limit opened.rest

theorem declaration_moves (limit line : Nat) (tokens : List Located) :
    declaration limit (place line) (tokens.map (Located.move place)) =
      moveResult place (Parsed.move place (Statement.move place))
        (declaration limit line tokens) := by
  simp only [declaration]
  rw [name_moves]
  apply moveResult_bind
  intro target
  simp only [Parsed.move]
  rw [expect_moves]
  apply moveResult_bind
  intro sign
  simp only [Parsed.move]
  rw [closingExpression_moves]
  exact moveResult_bind fun value => rfl

theorem begins_map_move {token : Token} {tokens : List Located} :
    Begins token (tokens.map (Located.move place)) ↔ Begins token tokens := by
  cases tokens with
  | nil => rfl
  | cons found rest => simp [Located.move]

theorem alternative_moves (nestedMoves : Moves place (Statement.move place) nested) (limit : Nat)
    (tokens : List Located) :
    alternative limit nested (tokens.map (Located.move place)) =
      moveResult place (Parsed.move place (List.map (Statement.move place)))
        (alternative limit nested tokens) := by
  by_cases hasElse : Begins (.keyword .elseWord) tokens
  · obtain ⟨line, rest, rfl⟩ := hasElse
    by_cases hasIf : Begins (.keyword .ifWord) rest
    · obtain ⟨ifLine, others, rfl⟩ := hasIf
      have chained := nestedMoves line (⟨.keyword .ifWord, ifLine⟩ :: others)
      simp only [List.map_cons, Located.move] at chained ⊢
      rw [alternative_chained, alternative_chained, chained]
      cases nested line (⟨.keyword .ifWord, ifLine⟩ :: others) <;> rfl
    · have block := blockOf_moves nestedMoves limit line rest
      rw [List.map_cons, alternative_block hasIf, ← block]
      exact alternative_block (mt begins_map_move.mp hasIf)
  · rw [alternative_without hasElse, alternative_without (mt begins_map_move.mp hasElse)]
    rfl

theorem branch_moves (nestedMoves : Moves place (Statement.move place) nested) (limit line : Nat)
    (tokens : List Located) :
    branch limit nested (place line) (tokens.map (Located.move place)) =
      moveResult place (Parsed.move place (Statement.move place))
        (branch limit nested line tokens) := by
  simp only [branch]
  rw [condition_moves]
  apply moveResult_bind
  intro test
  simp only [Parsed.move]
  rw [blockOf_moves nestedMoves]
  apply moveResult_bind
  intro whenTrue
  simp only [Parsed.move]
  rw [alternative_moves nestedMoves]
  apply moveResult_bind
  intro whenFalse
  simp only [pure, Except.pure, moveResult, Parsed.move, Statement.move, Statement.moveAll_eq_map]

theorem loop_moves (nestedMoves : Moves place (Statement.move place) nested) (limit line : Nat)
    (tokens : List Located) :
    loop limit nested (place line) (tokens.map (Located.move place)) =
      moveResult place (Parsed.move place (Statement.move place))
        (loop limit nested line tokens) := by
  simp only [loop]
  rw [condition_moves]
  apply moveResult_bind
  intro test
  simp only [Parsed.move]
  rw [blockOf_moves nestedMoves]
  apply moveResult_bind
  intro body
  simp only [pure, Except.pure, moveResult, Parsed.move, Statement.move, Statement.moveAll_eq_map]

theorem statementOf_moves (nestedMoves : Moves place (Statement.move place) nested)
    (limit : Nat) : Moves place (Statement.move place) (statementOf limit nested) := by
  intro callerLine tokens
  cases tokens with
  | nil => rfl
  | cons first rest =>
      obtain ⟨token, line⟩ := first
      cases token with
      | keyword word =>
          cases word with
          | letWord => exact declaration_moves limit line rest
          | ifWord => exact branch_moves nestedMoves limit line rest
          | whileWord => exact loop_moves nestedMoves limit line rest
          | printWord =>
              simp only [List.map_cons, Located.move, statementOf]
              rw [closingExpression_moves]
              exact moveResult_bind fun value => rfl
          | elseWord => rfl
      | identifier target =>
          by_cases assigns : Begins .equals rest
          · obtain ⟨signLine, inner, rfl⟩ := assigns
            simp only [List.map_cons, Located.move, statementOf]
            rw [closingExpression_moves]
            exact moveResult_bind fun value => rfl
          · rw [statementOf_identifier assigns]
            exact statementOf_identifier (mt begins_map_move.mp assigns)
      | _ => rfl

end

theorem statementWithin_moves (limit : Nat) :
    Moves place (Statement.move place) (statementWithin limit) := by
  induction limit with
  | zero => exact fun line tokens => rfl
  | succ limit ih => exact statementOf_moves ih limit

theorem statementsWith_moves {nested : Parser Statement}
    (nestedMoves : Moves place (Statement.move place) nested) (limit : Nat)
    (tokens : List Located) :
    statementsWith nested limit (tokens.map (Located.move place)) =
      moveProgram place (statementsWith nested limit tokens) := by
  induction limit generalizing tokens with
  | zero => rfl
  | succ limit ih =>
      cases tokens with
      | nil => rfl
      | cons found rest =>
          have firstMoves := nestedMoves found.line (found :: rest)
          simp only [List.map_cons, Located.move] at firstMoves
          simp only [List.map_cons, Located.move, statementsWith]
          rw [firstMoves]
          apply moveResult_bind
          intro first
          simp only [Parsed.move]
          rw [ih]
          exact moveResult_bind fun others => rfl

theorem statements_move (place : Nat → Nat) (tokens : List Located) :
    statements (tokens.map (Located.move place)) = moveProgram place (statements tokens) := by
  rw [statements, List.length_map]
  exact statementsWith_moves (statementWithin_moves _) _ tokens

def checkedStatements (tokens : List Located) : Except Error (List Statement) := do
  Nesting.check tokens
  statements tokens

theorem checkedStatements_move (place : Nat → Nat) (tokens : List Located) :
    checkedStatements (tokens.map (Located.move place)) =
      moveProgram place (checkedStatements tokens) := by
  simp only [checkedStatements, Nesting.check]
  rw [Nesting.checkFrom_move]
  exact moveResult_bind fun _ => statements_move place tokens

end Parse

end WhileLang
