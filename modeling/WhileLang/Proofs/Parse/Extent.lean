import WhileLang.Proofs.Parse.Completeness

/-!
How far an expression reaches. The parser of each rank takes the longest expression of its rank off
the front of the tokens: an operator of that rank or a tighter one always goes on with it, also
where its right operand then turns out to be missing, and no other token does.
-/

namespace WhileLang.Parse

open Grammar

theorem stops_zero (rest : List Located) : Stops 0 rest := by
  intro op _
  cases op <;> decide

theorem Stops.succ {rank : Nat} {rest : List Located} (stops : Stops rank rest)
    (ends : Ends (rank + 1) rest) : Stops (rank + 1) rest := by
  intro op begins
  have above := stops op begins
  have different := ends op begins
  omega

theorem stops_iff {rank : Nat} {rest : List Located} :
    Stops rank rest ↔ ∀ lower ≤ rank, ∀ op ∈ joining lower, ¬ Begins (.operator op) rest := by
  constructor
  · intro stops lower below op joins begins
    have above := stops op begins
    rw [(mem_joining_iff op lower).mp joins] at above
    omega
  · intro free op begins
    rcases Nat.lt_or_ge rank op.rank with above | below
    · exact above
    · exact absurd begins (free op.rank below op ((mem_joining_iff op _).mpr rfl))

/-- The loop of a rank goes on until no operator of the rank follows, if the limit covers the
tokens. Tighter operators are left neither by what comes first nor by a right operand. -/
theorem joined_stops {rank bound : Nat} {next : Parser Expression} (takes : TakesRanked next rank)
    (nextStops : ∀ line tokens parsed, tokens.length ≤ bound → next line tokens = .ok parsed →
      Stops rank parsed.rest)
    {limit : Nat} {left : Expression} {tokens : List Located} {parsed : Parsed Expression}
    (stops : Stops rank tokens) (within : tokens.length ≤ bound) (enough : tokens.length ≤ limit)
    (found : joined (rank + 1) next limit left tokens = .ok parsed) :
    Stops (rank + 1) parsed.rest := by
  induction limit generalizing left tokens with
  | zero =>
      have empty : tokens = [] := List.length_eq_zero_iff.mp (by omega)
      simp only [joined, Except.ok.injEq] at found
      subst parsed tokens
      intro op begins
      exact absurd begins not_begins_nil
  | succ limit ih =>
      by_cases continues : ∃ op, Begins (.operator op) tokens ∧ op.rank = rank + 1
      · obtain ⟨op, ⟨line, rest, rfl⟩, sameRank⟩ := continues
        rw [joined_operator sameRank, bind_eq_ok_iff] at found
        obtain ⟨right, rightParsed, joinedParsed⟩ := found
        have shorter := (takes _ _ _ rightParsed).shorter
        simp only [List.length_cons] at within enough
        have rightStops := nextStops line rest right (by omega) rightParsed
        exact ih rightStops (by omega) (by omega) joinedParsed
      · have ends : Ends (rank + 1) tokens := fun op begins same => continues ⟨op, begins, same⟩
        rw [joined_ends ends, Except.ok.injEq] at found
        subst parsed
        exact stops.succ ends

theorem ranked_stops {limit : Nat} {group : Parser Expression} (groupTakes : TakesRanked group 6)
    (rank line : Nat) (tokens : List Located) (parsed : Parsed Expression)
    (enough : tokens.length ≤ limit) (found : ranked limit group rank line tokens = .ok parsed) :
    Stops rank parsed.rest := by
  induction rank generalizing line tokens parsed with
  | zero => exact stops_zero parsed.rest
  | succ rank ih =>
      simp only [ranked, bind_eq_ok_iff] at found
      obtain ⟨left, leftParsed, joinedParsed⟩ := found
      have takes : TakesRanked (ranked limit group rank) rank := ranked_takes groupTakes rank
      have shorter := (takes _ _ _ leftParsed).shorter
      have leftStops := ih line tokens left enough leftParsed
      exact joined_stops takes ih leftStops (by omega) (by omega) joinedParsed

theorem expressionOfRank_eq_ok_iff {rank line : Nat} {tokens rest : List Located}
    {node : Expression} :
    expressionOfRank rank line tokens = .ok ⟨node, rest⟩ ↔
      Leads rank node tokens rest ∧ Stops rank rest := by
  constructor
  · intro found
    have groupTakes := expressionWithin_takes (tokens.length - 1)
    exact ⟨ranked_takes groupTakes rank _ _ _ found,
      ranked_stops groupTakes rank _ _ _ (Nat.le_refl _) found⟩
  · rintro ⟨⟨depth, front, rfl, derivation⟩, stops⟩
    exact reads_of_ranked derivation _ line rest (Nat.le_refl _) stops

theorem Stops.of_append {rank : Nat} {front back : List Located}
    (stops : Stops rank (front ++ back)) : Stops rank front := by
  rintro op ⟨line, rest, rfl⟩
  exact stops op ⟨line, rest ++ back, rfl⟩

theorem length_le_of_leads {rank : Nat} {tokens rest otherRest : List Located}
    {node otherNode : Expression} (leads : Leads rank node tokens rest) (stops : Stops rank rest)
    (otherLeads : Leads rank otherNode tokens otherRest) : rest.length ≤ otherRest.length := by
  obtain ⟨depth, front, rfl, derivation⟩ := leads
  obtain ⟨otherDepth, otherFront, split, otherDerivation⟩ := otherLeads
  rcases List.append_eq_append_iff.mp split with ⟨middle, rfl, rfl⟩ | ⟨middle, rfl, rfl⟩
  · have short : expressionOfRank rank 0 (front ++ middle) = .ok ⟨node, middle⟩ :=
      expressionOfRank_eq_ok_iff.mpr ⟨⟨depth, front, rfl, derivation⟩, stops.of_append⟩
    have long : expressionOfRank rank 0 (front ++ middle) = .ok ⟨otherNode, []⟩ :=
      expressionOfRank_eq_ok_iff.mpr ⟨⟨otherDepth, _, by rw [List.append_nil], otherDerivation⟩,
        fun op begins => absurd begins not_begins_nil⟩
    have same := short.symm.trans long
    simp only [Except.ok.injEq, Parsed.mk.injEq] at same
    simp [same.2]
  · simp

/-- The parser of a rank succeeds exactly on tokens that begin with an expression of the rank and
then do not go on with an operator of the rank or a tighter one. What it takes is the longest
expression of the rank there. -/
theorem expressionOfRank_takes_longest (rank line : Nat) (tokens rest : List Located)
    (node : Expression) :
    (expressionOfRank rank line tokens = .ok ⟨node, rest⟩ ↔
      ∃ depth front, tokens = front ++ rest ∧ Ranked rank depth front node ∧
        ∀ lower ≤ rank, ∀ op ∈ joining lower, ¬ Begins (.operator op) rest) ∧
    (expressionOfRank rank line tokens = .ok ⟨node, rest⟩ →
      ∀ depth front otherRest otherNode, tokens = front ++ otherRest →
        Ranked rank depth front otherNode → rest.length ≤ otherRest.length) := by
  constructor
  · rw [expressionOfRank_eq_ok_iff, stops_iff]
    constructor
    · rintro ⟨⟨depth, front, isTokens, derivation⟩, free⟩
      exact ⟨depth, front, isTokens, derivation, free⟩
    · rintro ⟨depth, front, isTokens, derivation, free⟩
      exact ⟨⟨depth, front, isTokens, derivation⟩, free⟩
  · intro found depth front otherRest otherNode isTokens derivation
    obtain ⟨leads, stops⟩ := expressionOfRank_eq_ok_iff.mp found
    exact length_le_of_leads leads stops ⟨depth, front, isTokens, derivation⟩

theorem expressionOfRank_takes_longest_sum :
    expressionOfRank 2 7 [⟨.number 1, 1⟩, ⟨.operator .add, 1⟩, ⟨.number 2, 1⟩,
        ⟨.operator .multiply, 2⟩, ⟨.number 3, 2⟩, ⟨.operator .greater, 3⟩, ⟨.semicolon, 3⟩] =
      .ok ⟨.binary .add (.literal (.number 1) 1)
          (.binary .multiply (.literal (.number 2) 1) (.literal (.number 3) 2) 2) 1,
        [⟨.operator .greater, 3⟩, ⟨.semicolon, 3⟩]⟩ ∧
    ∀ depth front otherRest otherNode,
      [⟨.number 1, 1⟩, ⟨.operator .add, 1⟩, ⟨.number 2, 1⟩, ⟨.operator .multiply, 2⟩,
        ⟨.number 3, 2⟩, ⟨.operator .greater, 3⟩, ⟨.semicolon, 3⟩] = front ++ otherRest →
      Ranked 2 depth front otherNode →
        [⟨.operator .greater, 3⟩, (⟨.semicolon, 3⟩ : Located)].length ≤ otherRest.length :=
  ⟨rfl, (expressionOfRank_takes_longest 2 7 _ _ _).2 rfl⟩

end WhileLang.Parse
