import WhileLang.Proofs.Parse.Completeness

/-!
The parsers without their limits. One round of each recursion and of each loop is given as a
function of its own result on other tokens. Every round asks for its result on fewer tokens only, so
a call ends after as many rounds as there are tokens, and the parser is the only function that the
round allows.
-/

namespace WhileLang.Parse

open Grammar

section

variable {ι γ : Type}

/-- There is just one function that gives what a round makes of it. A round that could come back to
the tokens that it began with would leave the result on them open. -/
def Determines (round : (ι → List Located → γ) → ι → List Located → γ)
    (solution : ι → List Located → γ) : Prop :=
  ∀ other, round other = other ↔ other = solution

theorem determines_of_shorter {round : (ι → List Located → γ) → ι → List Located → γ}
    {solution : ι → List Located → γ}
    (solves : ∀ index tokens, round solution index tokens = solution index tokens)
    (shorter : ∀ other index tokens,
      (∀ otherIndex fewer, fewer.length < tokens.length →
        other otherIndex fewer = solution otherIndex fewer) →
      round other index tokens = round solution index tokens) : Determines round solution := by
  intro other
  constructor
  · intro otherSolves
    funext index tokens
    induction count : tokens.length using Nat.strongRecOn generalizing index tokens with
    | ind count ih =>
        have onFewer := shorter other index tokens fun otherIndex fewer isFewer =>
          ih fewer.length (by omega) otherIndex fewer rfl
        calc other index tokens
          _ = round other index tokens := by rw [otherSolves]
          _ = round solution index tokens := onFewer
          _ = solution index tokens := solves index tokens
  · rintro rfl
    funext index tokens
    exact solves index tokens

end

theorem agree_refl {α : Type} (bound : Nat) (parser : Parser α) : Agree bound parser parser :=
  fun _ _ _ => rfl

theorem expressionWithin_agree_expression (bound : Nat) :
    Agree bound (expressionWithin bound) expression := by
  intro line tokens within
  cases tokens with
  | nil => exact (expressionWithin_nil bound line).trans (ranked_nil _).symm
  | cons found rest => exact expressionWithin_eq within (Nat.le_refl _)

theorem expressionOfRank_takes (rank : Nat) : TakesRanked (expressionOfRank rank) rank :=
  fun line tokens _ found =>
    ranked_takes (expressionWithin_takes (tokens.length - 1)) rank line tokens _ found

theorem ranked_expression_eq {limit : Nat} {tokens : List Located} (enough : tokens.length ≤ limit)
    (rank line : Nat) : ranked limit expression rank line tokens =
      expressionOfRank rank line tokens := by
  cases tokens with
  | nil => rw [expressionOfRank, ranked_nil, ranked_nil]
  | cons found rest =>
      have agree := expressionWithin_agree_expression rest.length
      exact (ranked_agree agree (expressionWithin_takes rest.length) (Nat.le_refl _) enough rank
        line (found :: rest) (Nat.le_refl _)).symm

/-- Any limit on the loops of the ranks will do that covers the tokens. -/
theorem expression_determined (extra : Nat) :
    Determines (fun group line tokens =>
      ranked (tokens.length + extra) group Operator.loosest line tokens) expression := by
  apply determines_of_shorter
  · intro line tokens
    exact ranked_expression_eq (Nat.le_add_right _ _) Operator.loosest line
  · intro other line tokens onFewer
    cases tokens with
    | nil => exact (ranked_nil _).trans (ranked_nil _).symm
    | cons found rest =>
        have agree : Agree rest.length expression other := fun otherLine fewer within =>
          (onFewer otherLine fewer (Nat.lt_succ_of_le within)).symm
        have enough : rest.length + 1 ≤ (found :: rest).length + extra := Nat.le_add_right _ _
        exact (ranked_agree agree (expressionOfRank_takes 6) enough enough Operator.loosest line
          (found :: rest) (Nat.le_refl _)).symm

def joinedRound (rank : Nat) (next : Parser Expression)
    (again : Expression → List Located → Except Error (Parsed Expression)) (left : Expression) :
    List Located → Except Error (Parsed Expression)
  | [] => .ok { node := left, rest := [] }
  | found :: rest =>
      match found.token.operator? with
      | some op =>
          if op.rank = rank then do
            let right ← next found.line rest
            again (.binary op left right.node found.line) right.rest
          else .ok { node := left, rest := found :: rest }
      | none => .ok { node := left, rest := found :: rest }

def joinedBehind (rank : Nat) (left : Expression) (tokens : List Located) :
    Except Error (Parsed Expression) :=
  joined (rank + 1) (expressionOfRank rank) tokens.length left tokens

theorem joinedRound_congr {rank : Nat} {next : Parser Expression} {takenRank : Nat}
    (takes : TakesRanked next takenRank)
    {again other : Expression → List Located → Except Error (Parsed Expression)} {left : Expression}
    {tokens : List Located}
    (same : ∀ node fewer, fewer.length < tokens.length → again node fewer = other node fewer) :
    joinedRound rank next again left tokens = joinedRound rank next other left tokens := by
  cases tokens with
  | nil => rfl
  | cons found rest =>
      simp only [joinedRound]
      split
      · split
        · apply bind_congr_of_ok
          intro right rightParsed
          have shorter := (takes _ _ _ rightParsed).shorter
          exact same _ right.rest (by rw [List.length_cons]; omega)
        · rfl
      · rfl

theorem joined_determined (rank : Nat) :
    Determines (joinedRound (rank + 1) (expressionOfRank rank)) (joinedBehind rank) := by
  have takes := expressionOfRank_takes rank
  apply determines_of_shorter
  · intro left tokens
    cases tokens with
    | nil => rfl
    | cons found rest =>
        have unfolded : joinedBehind rank left (found :: rest) =
            joinedRound (rank + 1) (expressionOfRank rank)
              (joined (rank + 1) (expressionOfRank rank) rest.length) left (found :: rest) := rfl
        rw [unfolded]
        apply joinedRound_congr takes
        intro node fewer isFewer
        exact joined_agree (agree_refl fewer.length _) takes (Nat.le_refl _) (Nat.le_refl _)
          (Nat.le_of_lt_succ isFewer)
  · intro other left tokens onFewer
    exact joinedRound_congr takes onFewer

theorem expressionOfRank_succ (rank line : Nat) (tokens : List Located) :
    expressionOfRank (rank + 1) line tokens = (do
      let left ← expressionOfRank rank line tokens
      joinedBehind rank left.node left.rest) := by
  rw [← ranked_expression_eq (Nat.le_refl _), ← ranked_expression_eq (Nat.le_refl _)]
  simp only [ranked]
  apply bind_congr_of_ok
  intro left leftParsed
  rw [ranked_expression_eq (Nat.le_refl _)] at leftParsed
  have shorter := (expressionOfRank_takes rank _ _ _ leftParsed).shorter
  have agree : Agree left.rest.length (expressionOfRank rank)
      (ranked tokens.length expression rank) := fun otherLine fewer within =>
    (ranked_expression_eq (by omega) rank otherLine).symm
  exact (joined_agree agree (expressionOfRank_takes rank) (Nat.le_refl _) (Nat.le_refl _)
    (by omega)).symm

theorem statementWithin_agree_statement (bound : Nat) :
    Agree bound (statementWithin bound) statement := by
  intro line tokens within
  obtain ⟨extra, rfl⟩ := Nat.exists_eq_add_of_le within
  exact (statementWithin_agree tokens.length extra line tokens (Nat.le_refl _)).symm

theorem statement_takes : TakesStatement statement := fun line tokens _ found =>
  statementWithin_takes tokens.length line tokens _ found

theorem statement_determined (extra : Nat) :
    Determines (fun nested line tokens => statementOf (tokens.length + extra) nested line tokens)
      statement := by
  apply determines_of_shorter
  · intro line tokens
    cases tokens with
    | nil => rfl
    | cons found rest =>
        have agree := statementWithin_agree_statement rest.length
        have enough : rest.length ≤ (found :: rest).length + extra := by
          rw [List.length_cons]
          omega
        exact (statementOf_agree agree (statementWithin_takes _) (Nat.le_refl _) enough line
          (found :: rest) (Nat.le_refl _)).symm
  · intro other line tokens onFewer
    cases tokens with
    | nil => rfl
    | cons found rest =>
        have agree : Agree rest.length statement other := fun otherLine fewer within =>
          (onFewer otherLine fewer (Nat.lt_succ_of_le within)).symm
        have enough : rest.length ≤ (found :: rest).length + extra := by
          rw [List.length_cons]
          omega
        exact (statementOf_agree agree statement_takes enough enough line (found :: rest)
          (Nat.le_refl _)).symm

def blockRound (again : Nat → List Located → Except Error (Parsed (List Statement)))
    (opened : Nat) : List Located → Except Error (Parsed (List Statement))
  | [] => .error { line := opened, fault := .endOfInput }
  | found :: rest =>
      if found.token = .closeBrace then .ok { node := [], rest }
      else do
        let first ← statement found.line (found :: rest)
        let others ← again opened first.rest
        return { node := first.node :: others.node, rest := others.rest }

def blockBody (opened : Nat) (tokens : List Located) : Except Error (Parsed (List Statement)) :=
  blockRest statement opened tokens.length tokens

theorem blockRound_congr
    {again other : Nat → List Located → Except Error (Parsed (List Statement))} {opened : Nat}
    {tokens : List Located}
    (same : ∀ line fewer, fewer.length < tokens.length → again line fewer = other line fewer) :
    blockRound again opened tokens = blockRound other opened tokens := by
  cases tokens with
  | nil => rfl
  | cons found rest =>
      simp only [blockRound]
      split
      · rfl
      · apply bind_congr_of_ok
        intro first firstParsed
        rw [same opened first.rest (statement_takes _ _ _ firstParsed).shorter]

theorem block_determined : Determines blockRound blockBody := by
  apply determines_of_shorter
  · intro opened tokens
    cases tokens with
    | nil => rfl
    | cons found rest =>
        have unfolded : blockBody opened (found :: rest) = blockRound
            (fun line => blockRest statement line rest.length) opened (found :: rest) := rfl
        rw [unfolded]
        apply blockRound_congr
        intro line fewer isFewer
        exact blockRest_agree (agree_refl fewer.length _) statement_takes (Nat.le_refl _)
          (Nat.le_refl _) (Nat.le_of_lt_succ isFewer)
  · intro other opened tokens onFewer
    exact blockRound_congr onFewer

theorem block_eq (line : Nat) (tokens : List Located) :
    block line tokens = (do
      let opened ← expect .openBrace line tokens
      blockBody opened.node opened.rest) := by
  apply bind_congr_of_ok
  intro opened openedParsed
  have shorter := expect_shorter openedParsed
  have agree : Agree opened.rest.length (statementWithin tokens.length) statement :=
    fun otherLine fewer within =>
      statementWithin_agree_statement tokens.length otherLine fewer (by omega)
  exact blockRest_agree agree (statementWithin_takes _) (Nat.le_refl _) (by omega) (Nat.le_refl _)

def programRound (again : Unit → List Located → Except Error (List Statement)) (_ : Unit) :
    List Located → Except Error (List Statement)
  | [] => .ok []
  | found :: rest => do
      let first ← statement found.line (found :: rest)
      let others ← again () first.rest
      return first.node :: others

theorem programRound_congr {again other : Unit → List Located → Except Error (List Statement)}
    {tokens : List Located}
    (same : ∀ index fewer, fewer.length < tokens.length → again index fewer = other index fewer) :
    programRound again () tokens = programRound other () tokens := by
  cases tokens with
  | nil => rfl
  | cons found rest =>
      apply bind_congr_of_ok
      intro first firstParsed
      rw [same () first.rest (statement_takes _ _ _ firstParsed).shorter]

theorem statements_eq (tokens : List Located) :
    statements tokens = statementsWith statement tokens.length tokens :=
  statementsWith_agree (statementWithin_agree_statement tokens.length) (statementWithin_takes _)
    (Nat.le_refl _) (Nat.le_refl _) (Nat.le_refl _)

theorem statements_determined : Determines programRound fun _ => statements := by
  apply determines_of_shorter
  · intro _ tokens
    cases tokens with
    | nil => rfl
    | cons found rest =>
        have unfolded : statements (found :: rest) =
            programRound (fun _ => statementsWith statement rest.length) () (found :: rest) :=
          statements_eq (found :: rest)
        rw [unfolded]
        apply programRound_congr
        intro _ fewer isFewer
        rw [statements_eq]
        exact statementsWith_agree (agree_refl fewer.length _) statement_takes (Nat.le_refl _)
          (Nat.le_refl _) (Nat.le_of_lt_succ isFewer)
  · intro other _ tokens onFewer
    exact programRound_congr onFewer

/-- How the parsers call each other when no limit is counted, and that every recursion and every
loop among them comes to an end. -/
structure Unlimited : Prop where
  lowest (line : Nat) (tokens : List Located) :
    expressionOfRank 0 line tokens = operand expression line tokens
  levels (rank line : Nat) (tokens : List Located) :
    expressionOfRank (rank + 1) line tokens = (do
      let left ← expressionOfRank rank line tokens
      joinedBehind rank left.node left.rest)
  joins (rank : Nat) :
    Determines (joinedRound (rank + 1) (expressionOfRank rank)) (joinedBehind rank)
  expressions (extra : Nat) :
    Determines (fun group line tokens =>
      ranked (tokens.length + extra) group Operator.loosest line tokens) expression
  nested (extra : Nat) :
    Determines (fun nested line tokens => statementOf (tokens.length + extra) nested line tokens)
      statement
  blocks (line : Nat) (tokens : List Located) :
    block line tokens = (do
      let opened ← expect .openBrace line tokens
      blockBody opened.node opened.rest)
  bodies : Determines blockRound blockBody
  programs : Determines programRound fun _ => statements

theorem unlimited : Unlimited where
  lowest line _ := (ranked_expression_eq (Nat.le_refl _) 0 line).symm
  levels := expressionOfRank_succ
  joins := joined_determined
  expressions := expression_determined
  nested := statement_determined
  blocks := block_eq
  bodies := block_determined
  programs := statements_determined

end WhileLang.Parse
