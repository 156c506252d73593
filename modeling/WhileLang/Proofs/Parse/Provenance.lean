import WhileLang.Proofs.LineRange
import WhileLang.Proofs.Parse.Recursion

/-!
What a parser owes to its tokens. A parser that has a token to look at makes no use of the line that
it is given; whatever line it reports or puts into a tree is the line of one of its tokens, and on
success some of the tokens are gone. Tokens may be moved to other lines and the result moves along,
so moving only lines that the tokens are not on shows that none of these is in the result.
-/

namespace WhileLang.Parse

open Grammar

structure Traced {α : Type} (onLine : α → Nat → Prop) (parser : Parser α) (tokens : List Located) :
    Prop where
  anyLine : ∀ line other, parser line tokens = parser other tokens
  rest : ∀ line parsed, parser line tokens = .ok parsed →
    ∃ front, front ≠ [] ∧ tokens = front ++ parsed.rest
  node : ∀ line parsed, parser line tokens = .ok parsed →
    ∀ carried, onLine parsed.node carried → carried ∈ tokens.map Located.line
  error : ∀ line error, parser line tokens = .error error →
    error.line ∈ tokens.map Located.line

def moveOthers (lines : List Nat) (line : Nat) : Nat := if line ∈ lines then line else line + 1

theorem moveOthers_eq_iff {lines : List Nat} {line : Nat} :
    moveOthers lines line = line ↔ line ∈ lines := by
  simp [moveOthers]

theorem Traced.of_moves {α : Type} {onLine : α → Nat → Prop} {parser : Parser α}
    {change : (Nat → Nat) → α → α} {found : Located} {others : List Located}
    (moves : ∀ place, Moves place (change place) parser)
    (stays : ∀ place node line, change place node = node → onLine node line → place line = line)
    (anyLine : ∀ line other, parser line (found :: others) = parser other (found :: others))
    (rest : ∀ line parsed, parser line (found :: others) = .ok parsed →
      ∃ front, front ≠ [] ∧ found :: others = front ++ parsed.rest) :
    Traced onLine parser (found :: others) := by
  let place := moveOthers ((found :: others).map Located.line)
  have onPlace : ∀ token ∈ found :: others, place token.line = token.line := fun token isMember =>
    moveOthers_eq_iff.mpr (List.mem_map_of_mem isMember)
  have fixed (line : Nat) : moveResult place (Parsed.move place (change place))
      (parser line (found :: others)) = parser line (found :: others) := by
    have moved := moves place found.line (found :: others)
    rw [map_move_eq_self onPlace, onPlace found List.mem_cons_self] at moved
    rw [anyLine line found.line, ← moved]
  refine ⟨anyLine, rest, ?_, ?_⟩
  · intro line parsed isParsed carried carries
    have same := fixed line
    rw [isParsed] at same
    have sameNode := congrArg Parsed.node (Except.ok.inj same)
    exact moveOthers_eq_iff.mp (stays place parsed.node carried sameNode carries)
  · intro line error failed
    have same := fixed line
    rw [failed] at same
    exact moveOthers_eq_iff.mp (congrArg Error.line (Except.error.inj same))

theorem ranked_anyLine {limit : Nat} {group : Parser Expression} (rank : Nat) (found : Located)
    (others : List Located) (line other : Nat) :
    ranked limit group rank line (found :: others) =
      ranked limit group rank other (found :: others) := by
  induction rank with
  | zero => rfl
  | succ rank ih =>
      simp only [ranked]
      rw [ih]

theorem expressionOfRank_moves (place : Nat → Nat) (rank : Nat) :
    Moves place (Expression.move place) (expressionOfRank rank) := by
  intro line tokens
  rw [expressionOfRank, List.length_map]
  exact ranked_moves (expressionWithin_moves _) rank line tokens

theorem expressionOfRank_traced (rank : Nat) (found : Located) (others : List Located) :
    Traced Expression.OnLine (expressionOfRank rank) (found :: others) := by
  apply Traced.of_moves fun place => expressionOfRank_moves place rank
  · exact fun place whole line fixed onLine => onLine.place_eq fixed
  · exact ranked_anyLine rank found others
  · intro line parsed isParsed
    obtain ⟨depth, front, isTokens, derivation⟩ := expressionOfRank_takes rank _ _ _ isParsed
    exact ⟨front, List.ne_nil_of_length_pos derivation.nonempty, isTokens⟩

theorem statement_moves (place : Nat → Nat) : Moves place (Statement.move place) statement := by
  intro line tokens
  rw [statement, List.length_map]
  exact statementWithin_moves _ line tokens

theorem statement_traced (found : Located) (others : List Located) :
    Traced (fun node => OnLine [node]) statement (found :: others) := by
  apply Traced.of_moves statement_moves
  · intro place node line fixed onLine
    exact onLine.place_eq (congrArg (fun moved => [moved]) fixed)
  · exact fun line other => rfl
  · intro line parsed isParsed
    obtain ⟨depth, front, isTokens, derivation⟩ := statement_takes _ _ _ isParsed
    exact ⟨front, List.ne_nil_of_length_pos derivation.statement_nonempty, isTokens⟩

theorem block_moves (place : Nat → Nat) :
    Moves place (List.map (Statement.move place)) block := by
  intro line tokens
  rw [block, List.length_map]
  exact blockOf_moves (statementWithin_moves _) _ line tokens

theorem block_traced (found : Located) (others : List Located) :
    Traced OnLine block (found :: others) := by
  apply Traced.of_moves block_moves
  · exact fun place nodes line fixed onLine => onLine.place_eq fixed
  · exact fun line other => rfl
  · intro line parsed isParsed
    obtain ⟨depth, front, isTokens, derivation⟩ :=
      blockOf_takes (statementWithin_takes _) isParsed
    refine ⟨front, ?_, isTokens⟩
    cases derivation with
    | block _ => exact List.cons_ne_nil _ _

/-- Whole programs, parsed as all else is. A program makes no use of the line and leaves no tokens.
-/
def program : Parser (List Statement) := fun _ tokens =>
  (statements tokens).map fun nodes => { node := nodes, rest := [] }

theorem program_moves (place : Nat → Nat) :
    Moves place (List.map (Statement.move place)) program := by
  intro line tokens
  rw [program, statements_move, program]
  cases statements tokens <;> rfl

theorem program_traced (found : Located) (others : List Located) :
    Traced OnLine program (found :: others) := by
  apply Traced.of_moves program_moves
  · exact fun place nodes line fixed onLine => onLine.place_eq fixed
  · exact fun line other => rfl
  · intro line parsed isParsed
    obtain ⟨nodes, _, rfl⟩ := map_eq_ok_iff.mp isParsed
    exact ⟨found :: others, List.cons_ne_nil _ _, (List.append_nil _).symm⟩

/-- No parser comes back to the tokens it was called with, so every call ends. Given any tokens but
none, each parser leaves a proper part of them behind what it takes, whatever line it is given; all
lines in its tree or its error are lines of the tokens; and a whole program takes all of them. -/
theorem parsers_trace_tokens :
    Unlimited ∧ ∀ tokens : List Located, tokens ≠ [] →
      (∀ rank, Traced Expression.OnLine (expressionOfRank rank) tokens) ∧
      Traced Expression.OnLine expression tokens ∧
      Traced (fun node => OnLine [node]) statement tokens ∧
      Traced OnLine block tokens ∧
      Traced OnLine program tokens ∧
      ∀ nodes, statements tokens = .ok nodes → ∃ depth, Program depth tokens nodes := by
  refine ⟨unlimited, fun tokens nonempty => ?_⟩
  obtain ⟨found, others, rfl⟩ := List.exists_cons_of_ne_nil nonempty
  exact ⟨fun rank => expressionOfRank_traced rank found others,
    expressionOfRank_traced Operator.loosest found others, statement_traced found others,
    block_traced found others, program_traced found others, fun nodes => statements_derives⟩

theorem parsers_trace_tokens_unfinished :
    (∀ line, expressionOfRank 2 line [⟨.number 1, 2⟩, ⟨.operator .add, 4⟩] =
      .error { line := 4, fault := .endOfInput }) ∧
    4 ∈ [⟨.number 1, 2⟩, (⟨.operator .add, 4⟩ : Located)].map Located.line ∧
    statements [⟨.keyword .printWord, 3⟩, ⟨.boolean true, 5⟩, ⟨.semicolon, 5⟩] =
      .ok [.print (.literal (.boolean true) 5) 3] ∧
    ∃ depth, Program depth [⟨.keyword .printWord, 3⟩, ⟨.boolean true, 5⟩, ⟨.semicolon, 5⟩]
      [.print (.literal (.boolean true) 5) 3] := by
  have failed : expressionOfRank 2 0 [⟨.number 1, 2⟩, ⟨.operator .add, 4⟩] =
      .error { line := 4, fault := .endOfInput } := rfl
  have parsed : statements [⟨.keyword .printWord, 3⟩, ⟨.boolean true, 5⟩, ⟨.semicolon, 5⟩] =
      .ok [.print (.literal (.boolean true) 5) 3] := rfl
  have traced := (parsers_trace_tokens.2 [⟨.number 1, 2⟩, ⟨.operator .add, 4⟩] (by simp)).1 2
  have whole := (parsers_trace_tokens.2
    [⟨.keyword .printWord, 3⟩, ⟨.boolean true, 5⟩, ⟨.semicolon, 5⟩] (by simp)).2.2.2.2.2
  exact ⟨fun line => (traced.anyLine line 0).trans failed, traced.error 0 _ failed, parsed,
    whole _ parsed⟩

end WhileLang.Parse
