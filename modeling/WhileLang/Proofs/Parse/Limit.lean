import WhileLang.Proofs.Parse.Soundness

/-!
The limits of the parsers are never felt: two limits that both cover the tokens give the same
result, also when it is an error. Each round takes a token, so what is left stays covered.
-/

namespace WhileLang.Parse

open Grammar

theorem bind_congr_of_ok {α β : Type} {first : Except Error α} {next other : α → Except Error β}
    (same : ∀ value, first = .ok value → next value = other value) :
    (first >>= next) = (first >>= other) := by
  cases first with
  | error error => rfl
  | ok value => exact same value rfl

def Agree {α : Type} (bound : Nat) (parser other : Parser α) : Prop :=
  ∀ line tokens, tokens.length ≤ bound → parser line tokens = other line tokens

theorem operand_agree {bound : Nat} {group other : Parser Expression}
    (agree : Agree bound group other) : Agree (bound + 1) (operand group) (operand other) := by
  intro line tokens enough
  cases tokens with
  | nil => rfl
  | cons found rest =>
      simp only [List.length_cons] at enough
      obtain ⟨token, tokenLine⟩ := found
      cases token with
      | openParen =>
          simp only [operand]
          rw [agree tokenLine rest (by omega)]
      | _ => rfl

theorem joined_agree {bound rank : Nat} {next other : Parser Expression}
    (agree : Agree bound next other) (takes : TakesRanked next rank)
    {limit otherLimit : Nat} {left : Expression} {tokens : List Located}
    (within : tokens.length ≤ bound) (enough : tokens.length ≤ limit)
    (otherEnough : tokens.length ≤ otherLimit) :
    joined (rank + 1) next limit left tokens = joined (rank + 1) other otherLimit left tokens := by
  induction limit generalizing otherLimit left tokens with
  | zero =>
      have empty : tokens = [] := List.length_eq_zero_iff.mp (by omega)
      subst tokens
      have ends : Ends (rank + 1) [] := fun op begins => absurd begins not_begins_nil
      rw [joined_ends ends, joined_ends ends]
  | succ limit ih =>
      by_cases continues : ∃ op, Begins (.operator op) tokens ∧ op.rank = rank + 1
      · obtain ⟨op, ⟨line, rest, rfl⟩, sameRank⟩ := continues
        simp only [List.length_cons] at within enough otherEnough
        cases otherLimit with
        | zero => omega
        | succ otherLimit =>
            rw [joined_operator sameRank, joined_operator sameRank,
              ← agree line rest (by omega)]
            apply bind_congr_of_ok
            intro right rightParsed
            have shorter := (takes _ _ _ rightParsed).shorter
            exact ih (by omega) (by omega) (by omega)
      · have ends : Ends (rank + 1) tokens := fun op begins same => continues ⟨op, begins, same⟩
        rw [joined_ends ends, joined_ends ends]

theorem ranked_agree {bound limit otherLimit : Nat} {group other : Parser Expression}
    (agree : Agree bound group other) (takes : TakesRanked group 6)
    (enough : bound + 1 ≤ limit) (otherEnough : bound + 1 ≤ otherLimit) (rank : Nat) :
    Agree (bound + 1) (ranked limit group rank) (ranked otherLimit other rank) := by
  induction rank with
  | zero => exact operand_agree agree
  | succ rank ih =>
      intro line tokens within
      simp only [ranked]
      rw [← ih line tokens within]
      apply bind_congr_of_ok
      intro left leftParsed
      have shorter := (ranked_takes takes rank _ _ _ leftParsed).shorter
      exact joined_agree ih (ranked_takes takes rank) (by omega) (by omega) (by omega)

theorem ranked_nil {limit line : Nat} {group : Parser Expression} (rank : Nat) :
    ranked limit group rank line [] = .error ⟨line, .endOfInput⟩ := by
  induction rank with
  | zero => rfl
  | succ rank ih =>
      simp only [ranked, ih]
      rfl

theorem expressionWithin_nil (limit line : Nat) :
    expressionWithin limit line [] = .error ⟨line, .endOfInput⟩ := by
  cases limit with
  | zero => rfl
  | succ limit => exact ranked_nil Operator.loosest

/-- The larger limit is written as a sum, so that the induction is over the smaller one. -/
theorem expressionWithin_agree (limit extra : Nat) :
    Agree limit (expressionWithin limit) (expressionWithin (limit + extra)) := by
  induction limit with
  | zero =>
      intro line tokens within
      have empty : tokens = [] := List.length_eq_zero_iff.mp (by omega)
      rw [empty, expressionWithin_nil, expressionWithin_nil]
  | succ limit ih =>
      rw [Nat.add_right_comm]
      exact ranked_agree ih (expressionWithin_takes limit) (Nat.le_refl _) (by omega) _

theorem expressionWithin_eq {limit otherLimit line : Nat} {tokens : List Located}
    (enough : tokens.length ≤ limit) (otherEnough : tokens.length ≤ otherLimit) :
    expressionWithin limit line tokens = expressionWithin otherLimit line tokens := by
  obtain ⟨extra, rfl⟩ := Nat.exists_eq_add_of_le enough
  obtain ⟨otherExtra, rfl⟩ := Nat.exists_eq_add_of_le otherEnough
  rw [← expressionWithin_agree tokens.length extra line tokens (Nat.le_refl _),
    ← expressionWithin_agree tokens.length otherExtra line tokens (Nat.le_refl _)]

theorem expect_shorter {expected : Token} {line : Nat} {tokens : List Located}
    {parsed : Parsed Nat} (found : expect expected line tokens = .ok parsed) :
    parsed.rest.length < tokens.length := by
  rw [expect_eq_ok_iff.mp found, List.length_cons]
  omega

theorem condition_shorter {limit line : Nat} {tokens : List Located}
    {parsed : Parsed Expression} (found : condition limit line tokens = .ok parsed) :
    parsed.rest.length < tokens.length := by
  obtain ⟨opened, closed, inner, rfl, leads⟩ := condition_takes found
  have shorter := leads.shorter
  simp only [List.length_cons] at shorter ⊢
  omega

theorem blockOf_shorter {nested : Parser Statement} (takes : TakesStatement nested)
    {limit line : Nat} {tokens : List Located} {parsed : Parsed (List Statement)}
    (found : blockOf limit nested line tokens = .ok parsed) :
    parsed.rest.length < tokens.length := by
  obtain ⟨opened, inner, rfl, restParsed⟩ := blockOf_eq_ok_iff.mp found
  obtain ⟨closed, depth, front, rfl, _⟩ := blockRest_takes takes restParsed
  simp only [List.length_cons, List.length_append]
  omega

section

variable {bound limit otherLimit : Nat} {nested other : Parser Statement}

theorem closingExpression_agree (enough : bound ≤ limit) (otherEnough : bound ≤ otherLimit) :
    Agree bound (closingExpression limit) (closingExpression otherLimit) := by
  intro line tokens within
  simp only [closingExpression]
  rw [expressionWithin_eq (Nat.le_trans within enough) (Nat.le_trans within otherEnough)]

theorem condition_agree (enough : bound ≤ limit) (otherEnough : bound ≤ otherLimit) :
    Agree bound (condition limit) (condition otherLimit) := by
  intro line tokens within
  apply bind_congr_of_ok
  intro opened openedParsed
  have shorter := expect_shorter openedParsed
  have same : expressionWithin limit line opened.rest =
      expressionWithin otherLimit line opened.rest :=
    expressionWithin_eq (by omega) (by omega)
  rw [same]

theorem blockRest_agree (agree : Agree bound nested other) (takes : TakesStatement nested)
    {opened : Nat} {tokens : List Located} (within : tokens.length ≤ bound)
    (enough : tokens.length ≤ limit) (otherEnough : tokens.length ≤ otherLimit) :
    blockRest nested opened limit tokens = blockRest other opened otherLimit tokens := by
  induction limit generalizing otherLimit tokens with
  | zero =>
      have empty : tokens = [] := List.length_eq_zero_iff.mp (by omega)
      subst tokens
      cases otherLimit <;> rfl
  | succ limit ih =>
      cases tokens with
      | nil => cases otherLimit <;> rfl
      | cons found rest =>
          cases otherLimit with
          | zero => simp at otherEnough
          | succ otherLimit =>
              simp only [blockRest]
              by_cases closes : found.token = .closeBrace
              · rw [if_pos closes, if_pos closes]
              · rw [if_neg closes, if_neg closes, ← agree found.line _ within]
                apply bind_congr_of_ok
                intro first firstParsed
                have shorter := (takes _ _ _ firstParsed).shorter
                have same : blockRest nested opened limit first.rest =
                    blockRest other opened otherLimit first.rest :=
                  ih (by omega) (by omega) (by omega)
                rw [same]

theorem blockOf_agree (agree : Agree bound nested other) (takes : TakesStatement nested)
    (enough : bound ≤ limit) (otherEnough : bound ≤ otherLimit) :
    Agree bound (blockOf limit nested) (blockOf otherLimit other) := by
  intro line tokens within
  apply bind_congr_of_ok
  intro opened openedParsed
  have shorter := expect_shorter openedParsed
  exact blockRest_agree agree takes (by omega) (by omega) (by omega)

theorem alternative_agree (agree : Agree bound nested other) (takes : TakesStatement nested)
    (enough : bound ≤ limit) (otherEnough : bound ≤ otherLimit) {tokens : List Located}
    (within : tokens.length ≤ bound) :
    alternative limit nested tokens = alternative otherLimit other tokens := by
  by_cases hasElse : Begins (.keyword .elseWord) tokens
  · obtain ⟨line, rest, rfl⟩ := hasElse
    simp only [List.length_cons] at within
    by_cases hasIf : Begins (.keyword .ifWord) rest
    · obtain ⟨ifLine, others, rfl⟩ := hasIf
      rw [alternative_chained, alternative_chained, agree line _ (by omega)]
    · rw [alternative_block hasIf, alternative_block hasIf]
      exact blockOf_agree agree takes enough otherEnough line rest (by omega)
  · rw [alternative_without hasElse, alternative_without hasElse]

theorem declaration_agree (enough : bound ≤ limit) (otherEnough : bound ≤ otherLimit)
    {line : Nat} {tokens : List Located} (within : tokens.length ≤ bound) :
    declaration limit line tokens = declaration otherLimit line tokens := by
  apply bind_congr_of_ok
  intro target targetParsed
  obtain ⟨nameLine, rfl⟩ := name_eq_ok_iff.mp targetParsed
  apply bind_congr_of_ok
  intro sign signParsed
  have shorter := expect_shorter signParsed
  simp only [List.length_cons] at within
  have same := closingExpression_agree enough otherEnough line sign.rest (by omega)
  rw [same]

theorem branch_agree (agree : Agree bound nested other) (takes : TakesStatement nested)
    (enough : bound ≤ limit) (otherEnough : bound ≤ otherLimit) {line : Nat}
    {tokens : List Located} (within : tokens.length ≤ bound) :
    branch limit nested line tokens = branch otherLimit other line tokens := by
  simp only [branch]
  rw [← condition_agree enough otherEnough line tokens within]
  apply bind_congr_of_ok
  intro test testParsed
  have testShorter := condition_shorter testParsed
  rw [← blockOf_agree agree takes enough otherEnough line test.rest (by omega)]
  apply bind_congr_of_ok
  intro whenTrue trueParsed
  have trueShorter := blockOf_shorter takes trueParsed
  have within' : whenTrue.rest.length ≤ bound := by omega
  rw [alternative_agree agree takes enough otherEnough within']

theorem loop_agree (agree : Agree bound nested other) (takes : TakesStatement nested)
    (enough : bound ≤ limit) (otherEnough : bound ≤ otherLimit) {line : Nat}
    {tokens : List Located} (within : tokens.length ≤ bound) :
    loop limit nested line tokens = loop otherLimit other line tokens := by
  simp only [loop]
  rw [← condition_agree enough otherEnough line tokens within]
  apply bind_congr_of_ok
  intro test testParsed
  have testShorter := condition_shorter testParsed
  rw [← blockOf_agree agree takes enough otherEnough line test.rest (by omega)]

theorem statementOf_agree (agree : Agree bound nested other) (takes : TakesStatement nested)
    (enough : bound ≤ limit) (otherEnough : bound ≤ otherLimit) :
    Agree (bound + 1) (statementOf limit nested) (statementOf otherLimit other) := by
  intro callerLine tokens within
  cases tokens with
  | nil => rfl
  | cons first rest =>
      simp only [List.length_cons] at within
      obtain ⟨token, line⟩ := first
      cases token with
      | keyword word =>
          cases word with
          | letWord => exact declaration_agree enough otherEnough (by omega)
          | ifWord => exact branch_agree agree takes enough otherEnough (by omega)
          | whileWord => exact loop_agree agree takes enough otherEnough (by omega)
          | printWord =>
              simp only [statementOf]
              rw [closingExpression_agree enough otherEnough line rest (by omega)]
          | elseWord => rfl
      | identifier target =>
          by_cases assigns : Begins .equals rest
          · obtain ⟨signLine, inner, rfl⟩ := assigns
            simp only [List.length_cons] at within
            simp only [statementOf]
            rw [closingExpression_agree enough otherEnough line inner (by omega)]
          · rw [statementOf_identifier assigns, statementOf_identifier assigns]
      | _ => rfl

end

theorem statementWithin_nil (limit line : Nat) :
    statementWithin limit line [] = .error ⟨line, .endOfInput⟩ := by
  cases limit <;> rfl

theorem statementWithin_agree (limit extra : Nat) :
    Agree limit (statementWithin limit) (statementWithin (limit + extra)) := by
  induction limit with
  | zero =>
      intro line tokens within
      have empty : tokens = [] := List.length_eq_zero_iff.mp (by omega)
      rw [empty, statementWithin_nil, statementWithin_nil]
  | succ limit ih =>
      rw [Nat.add_right_comm]
      exact statementOf_agree ih (statementWithin_takes limit) (Nat.le_refl _) (by omega)

theorem statementsWith_agree {bound limit otherLimit : Nat} {nested other : Parser Statement}
    (agree : Agree bound nested other) (takes : TakesStatement nested) {tokens : List Located}
    (within : tokens.length ≤ bound) (enough : tokens.length ≤ limit)
    (otherEnough : tokens.length ≤ otherLimit) :
    statementsWith nested limit tokens = statementsWith other otherLimit tokens := by
  induction limit generalizing otherLimit tokens with
  | zero =>
      have empty : tokens = [] := List.length_eq_zero_iff.mp (by omega)
      subst tokens
      cases otherLimit <;> rfl
  | succ limit ih =>
      cases tokens with
      | nil => cases otherLimit <;> rfl
      | cons found rest =>
          cases otherLimit with
          | zero => simp at otherEnough
          | succ otherLimit =>
              simp only [statementsWith]
              rw [← agree found.line _ within]
              apply bind_congr_of_ok
              intro first firstParsed
              have shorter := (takes _ _ _ firstParsed).shorter
              have same : statementsWith nested limit first.rest =
                  statementsWith other otherLimit first.rest :=
                ih (by omega) (by omega) (by omega)
              rw [same]

theorem statementsWith_eq_statements {inner limit : Nat} {tokens : List Located}
    (enoughInner : tokens.length ≤ inner) (enough : tokens.length ≤ limit) :
    statementsWith (statementWithin inner) limit tokens = statements tokens := by
  obtain ⟨extra, rfl⟩ := Nat.exists_eq_add_of_le enoughInner
  have agree := statementWithin_agree tokens.length extra
  exact (statementsWith_agree agree (statementWithin_takes _) (Nat.le_refl _) (Nat.le_refl _)
    enough).symm

end WhileLang.Parse
