import WhileLang.Proofs.Grammar
import WhileLang.Proofs.Parse.Outcome

/-!
What a parser takes off the front of the tokens is derived by the grammar, with the node that the
parser built. No limit matters here: a parser that stops early has taken a shorter phrase.
-/

namespace WhileLang

namespace Grammar

theorem mem_joining_iff (op : Operator) (rank : Nat) : op ∈ joining rank ↔ op.rank = rank := by
  unfold joining
  split <;> cases op <;> simp_all [Operator.rank] <;> omega

def Leads (rank : Nat) (node : Expression) (tokens rest : List Located) : Prop :=
  ∃ depth front, tokens = front ++ rest ∧ Ranked rank depth front node

def Opens (phrase : Phrase) (tokens rest : List Located) : Prop :=
  ∃ depth front, tokens = front ++ rest ∧ Derives phrase depth front

theorem Ranked.nonempty {rank depth tokens node} (derivation : Ranked rank depth tokens node) :
    0 < tokens.length := by
  induction derivation with
  | operand _ ih => exact ih
  | join _ _ _ leftNonempty _ =>
      rw [List.length_append]
      exact Nat.add_pos_left leftNonempty _
  | _ => simp

theorem Derives.statement_nonempty {node depth tokens}
    (derivation : Derives (.statement node) depth tokens) : 0 < tokens.length := by
  cases derivation <;> simp

theorem Derives.branch_of_begins {node depth tokens}
    (derivation : Derives (.statement node) depth tokens)
    (begins : Parse.Begins (.keyword .ifWord) tokens) :
    ∃ condition whenTrue whenFalse line, node = .branch condition whenTrue whenFalse line := by
  cases derivation with
  | branch _ _ _ => exact ⟨_, _, _, _, rfl⟩
  | _ => simp at begins

theorem Derives.statement_head {node : Statement} {depth : Nat} {front : List Located}
    (derivation : Derives (.statement node) depth front) :
    ∃ found others, front = found :: others ∧ found.token ≠ .closeBrace ∧
      found.token ≠ .keyword .elseWord := by
  cases derivation <;> exact ⟨_, _, rfl, by simp, by simp⟩

theorem Derives.statements_noElse {nodes : List Statement} {depth : Nat}
    {front rest : List Located} (derivation : Derives (.statements nodes) depth front)
    (noElse : ¬ Parse.Begins (.keyword .elseWord) rest) :
    ¬ Parse.Begins (.keyword .elseWord) (front ++ rest) := by
  cases derivation with
  | nil => exact noElse
  | cons firstDerived _ =>
      obtain ⟨found, others, rfl, _, notElse⟩ := firstDerived.statement_head
      simpa using notElse

theorem Derives.block_noIf {nodes : List Statement} {depth : Nat} {front : List Located}
    (derivation : Derives (.block nodes) depth front) (rest : List Located) :
    ¬ Parse.Begins (.keyword .ifWord) (front ++ rest) := by
  cases derivation with
  | block _ => simp

theorem Leads.shorter {rank node tokens rest} (leads : Leads rank node tokens rest) :
    rest.length < tokens.length := by
  obtain ⟨depth, front, rfl, derivation⟩ := leads
  have nonempty := derivation.nonempty
  simp only [List.length_append]
  omega

theorem Opens.shorter {node tokens rest} (opens : Opens (.statement node) tokens rest) :
    rest.length < tokens.length := by
  obtain ⟨depth, front, rfl, derivation⟩ := opens
  have nonempty := derivation.statement_nonempty
  simp only [List.length_append]
  omega

end Grammar

namespace Parse

open Grammar

def TakesRanked (parser : Parser Expression) (rank : Nat) : Prop :=
  ∀ line tokens parsed, parser line tokens = .ok parsed →
    Leads rank parsed.node tokens parsed.rest

def TakesStatement (parser : Parser Statement) : Prop :=
  ∀ line tokens parsed, parser line tokens = .ok parsed →
    Opens (.statement parsed.node) tokens parsed.rest

theorem operand_takes {group : Parser Expression} (groupTakes : TakesRanked group 6) :
    TakesRanked (operand group) 0 := by
  rintro line tokens ⟨node, rest⟩ parsed
  cases tokens with
  | nil => simp [operand] at parsed
  | cons found others =>
      obtain ⟨token, tokenLine⟩ := found
      cases token with
      | number value =>
          simp only [operand, Except.ok.injEq, Parsed.mk.injEq] at parsed
          obtain ⟨rfl, rfl⟩ := parsed
          exact ⟨0, [_], rfl, Ranked.number⟩
      | boolean value =>
          simp only [operand, Except.ok.injEq, Parsed.mk.injEq] at parsed
          obtain ⟨rfl, rfl⟩ := parsed
          exact ⟨0, [_], rfl, Ranked.boolean⟩
      | identifier name =>
          simp only [operand, Except.ok.injEq, Parsed.mk.injEq] at parsed
          obtain ⟨rfl, rfl⟩ := parsed
          exact ⟨0, [_], rfl, Ranked.reference⟩
      | openParen =>
          simp only [operand, bind_eq_ok_iff, expect_eq_ok_iff, pure_eq_ok_iff,
            Parsed.mk.injEq] at parsed
          obtain ⟨inner, innerParsed, close, closing, rfl, rfl⟩ := parsed
          obtain ⟨depth, front, rfl, derivation⟩ := groupTakes _ _ _ innerParsed
          have whole : Ranked 0 (depth + 1)
              (⟨.openParen, tokenLine⟩ :: front ++ [⟨.closeParen, close.node⟩]) inner.node :=
            Ranked.group derivation
          refine ⟨depth + 1, _, ?_, whole⟩
          rw [closing]
          simp
      | _ => simp [operand] at parsed

theorem joined_takes {rank : Nat} {next : Parser Expression} (nextTakes : TakesRanked next rank)
    {limit depth : Nat} {left : Expression} {front tokens : List Located}
    {parsed : Parsed Expression} (leftDerived : Ranked (rank + 1) depth front left)
    (joinedParsed : joined (rank + 1) next limit left tokens = .ok parsed) :
    Leads (rank + 1) parsed.node (front ++ tokens) parsed.rest := by
  induction limit generalizing depth left front tokens with
  | zero =>
      simp only [joined, Except.ok.injEq] at joinedParsed
      subst parsed
      exact ⟨depth, front, rfl, leftDerived⟩
  | succ limit ih =>
      by_cases continues : ∃ op, Begins (.operator op) tokens ∧ op.rank = rank + 1
      · obtain ⟨op, ⟨line, rest, rfl⟩, sameRank⟩ := continues
        rw [joined_operator sameRank, bind_eq_ok_iff] at joinedParsed
        obtain ⟨right, rightParsed, joinedParsed⟩ := joinedParsed
        obtain ⟨rightDepth, rightFront, rfl, rightDerived⟩ := nextTakes _ _ _ rightParsed
        have member : op ∈ joining (rank + 1) := (mem_joining_iff op _).mpr sameRank
        have node : Ranked (rank + 1) (max depth rightDepth)
            (front ++ ⟨.operator op, line⟩ :: rightFront) (.binary op left right.node line) :=
          Ranked.join leftDerived member rightDerived
        simpa using ih node joinedParsed
      · have ends : Ends (rank + 1) tokens := fun op begins same => continues ⟨op, begins, same⟩
        rw [joined_ends ends, Except.ok.injEq] at joinedParsed
        subst parsed
        exact ⟨depth, front, rfl, leftDerived⟩

theorem ranked_takes {limit : Nat} {group : Parser Expression} (groupTakes : TakesRanked group 6)
    (rank : Nat) : TakesRanked (ranked limit group rank) rank := by
  induction rank with
  | zero => exact operand_takes groupTakes
  | succ rank ih =>
      intro line tokens parsed found
      simp only [ranked, bind_eq_ok_iff] at found
      obtain ⟨left, leftParsed, joinedParsed⟩ := found
      obtain ⟨depth, front, rfl, leftDerived⟩ := ih _ _ _ leftParsed
      exact joined_takes ih (Ranked.operand leftDerived) joinedParsed

theorem expressionWithin_takes (limit : Nat) : TakesRanked (expressionWithin limit) 6 := by
  induction limit with
  | zero =>
      intro line tokens parsed found
      simp [expressionWithin] at found
  | succ limit ih => exact ranked_takes ih Operator.loosest

theorem closingExpression_takes {limit line : Nat} {tokens : List Located}
    {parsed : Parsed Expression} (found : closingExpression limit line tokens = .ok parsed) :
    ∃ closed, Leads 6 parsed.node tokens (⟨.semicolon, closed⟩ :: parsed.rest) := by
  obtain ⟨closed, valueParsed⟩ := closingExpression_eq_ok_iff.mp found
  exact ⟨closed, expressionWithin_takes limit _ _ _ valueParsed⟩

theorem condition_takes {limit line : Nat} {tokens : List Located} {parsed : Parsed Expression}
    (found : condition limit line tokens = .ok parsed) :
    ∃ opened closed inner, tokens = ⟨.openParen, opened⟩ :: inner ∧
      Leads 6 parsed.node inner (⟨.closeParen, closed⟩ :: parsed.rest) := by
  obtain ⟨opened, closed, inner, rfl, testParsed⟩ := condition_eq_ok_iff.mp found
  exact ⟨opened, closed, inner, rfl, expressionWithin_takes limit _ _ _ testParsed⟩

theorem blockRest_takes {nested : Parser Statement} (nestedTakes : TakesStatement nested)
    {opened limit : Nat} {tokens : List Located} {parsed : Parsed (List Statement)}
    (found : blockRest nested opened limit tokens = .ok parsed) :
    ∃ closed, Opens (.statements parsed.node) tokens (⟨.closeBrace, closed⟩ :: parsed.rest) := by
  induction limit generalizing tokens parsed with
  | zero => simp [blockRest] at found
  | succ limit ih =>
      cases tokens with
      | nil => simp [blockRest] at found
      | cons next rest =>
          obtain ⟨token, line⟩ := next
          by_cases closes : token = .closeBrace
          · simp only [blockRest, closes, if_true, Except.ok.injEq] at found
            subst parsed
            exact ⟨line, 0, [], by simp [closes], Derives.nil⟩
          · simp only [blockRest, closes, if_false, bind_eq_ok_iff, pure_eq_ok_iff] at found
            obtain ⟨first, firstParsed, others, othersParsed, rfl⟩ := found
            obtain ⟨firstDepth, front, split, firstDerived⟩ := nestedTakes _ _ _ firstParsed
            obtain ⟨closed, depth, back, othersSplit, othersDerived⟩ := ih othersParsed
            refine ⟨closed, _, front ++ back, ?_, Derives.cons firstDerived othersDerived⟩
            rw [split, othersSplit, List.append_assoc]

theorem blockOf_takes {nested : Parser Statement} (nestedTakes : TakesStatement nested)
    {limit line : Nat} {tokens : List Located} {parsed : Parsed (List Statement)}
    (found : blockOf limit nested line tokens = .ok parsed) :
    Opens (.block parsed.node) tokens parsed.rest := by
  obtain ⟨opened, inner, rfl, restParsed⟩ := blockOf_eq_ok_iff.mp found
  obtain ⟨closed, depth, front, rfl, derivation⟩ := blockRest_takes nestedTakes restParsed
  have whole : Derives (.block parsed.node) (depth + 1)
      (⟨.openBrace, opened⟩ :: front ++ [⟨.closeBrace, closed⟩]) := Derives.block derivation
  exact ⟨depth + 1, _, by simp, whole⟩

theorem alternative_takes {nested : Parser Statement} (nestedTakes : TakesStatement nested)
    {limit : Nat} {tokens : List Located} {parsed : Parsed (List Statement)}
    (found : alternative limit nested tokens = .ok parsed) :
    Opens (.alternative parsed.node) tokens parsed.rest := by
  by_cases hasElse : Begins (.keyword .elseWord) tokens
  · obtain ⟨line, rest, rfl⟩ := hasElse
    by_cases hasIf : Begins (.keyword .ifWord) rest
    · obtain ⟨ifLine, others, rfl⟩ := hasIf
      rw [alternative_chained, map_eq_ok_iff] at found
      obtain ⟨chained, chainedParsed, rfl⟩ := found
      obtain ⟨depth, front, split, derivation⟩ := nestedTakes _ _ _ chainedParsed
      have begins : Begins (.keyword .ifWord) front := by
        cases front with
        | nil => simpa using derivation.statement_nonempty
        | cons next back =>
            simp only [List.cons_append, List.cons.injEq] at split
            simp [← split.1]
      obtain ⟨condition, whenTrue, whenFalse, branchLine, isBranch⟩ :=
        derivation.branch_of_begins begins
      rw [isBranch] at derivation
      refine ⟨depth, ⟨.keyword .elseWord, line⟩ :: front, by simp [split], ?_⟩
      simpa [isBranch] using Derives.elseIf derivation
    · rw [alternative_block hasIf] at found
      obtain ⟨depth, front, rfl, derivation⟩ := blockOf_takes nestedTakes found
      exact ⟨depth, ⟨.keyword .elseWord, line⟩ :: front, rfl, Derives.elseBlock derivation⟩
  · rw [alternative_without hasElse, Except.ok.injEq] at found
    subst parsed
    exact ⟨0, [], rfl, Derives.withoutElse⟩

theorem declaration_takes {limit line : Nat} {tokens : List Located} {parsed : Parsed Statement}
    (found : declaration limit line tokens = .ok parsed) :
    Opens (.statement parsed.node) (⟨.keyword .letWord, line⟩ :: tokens) parsed.rest := by
  obtain ⟨target, nameLine, signLine, value, inner, rfl, valueParsed, isDeclare⟩ :=
    declaration_eq_ok_iff.mp found
  obtain ⟨closed, depth, front, rfl, derivation⟩ := closingExpression_takes valueParsed
  rw [isDeclare]
  refine ⟨depth, ⟨.keyword .letWord, line⟩ :: ⟨.identifier target, nameLine⟩ ::
    ⟨.equals, signLine⟩ :: front ++ [⟨.semicolon, closed⟩], by simp, Derives.declare derivation⟩

theorem branch_takes {nested : Parser Statement} (nestedTakes : TakesStatement nested)
    {limit line : Nat} {tokens : List Located} {parsed : Parsed Statement}
    (found : branch limit nested line tokens = .ok parsed) :
    Opens (.statement parsed.node) (⟨.keyword .ifWord, line⟩ :: tokens) parsed.rest := by
  obtain ⟨test, whenTrue, whenFalse, afterTest, afterTrue, testParsed, trueParsed, falseParsed,
    isBranch⟩ := branch_eq_ok_iff.mp found
  obtain ⟨opened, closed, inner, rfl, depth, front, rfl, testDerived⟩ := condition_takes testParsed
  obtain ⟨trueDepth, trueFront, rfl, trueDerived⟩ := blockOf_takes nestedTakes trueParsed
  obtain ⟨falseDepth, falseFront, rfl, falseDerived⟩ := alternative_takes nestedTakes falseParsed
  rw [isBranch]
  refine ⟨_, ⟨.keyword .ifWord, line⟩ :: ⟨.openParen, opened⟩ ::
    front ++ ⟨.closeParen, closed⟩ :: trueFront ++ falseFront, by simp,
    Derives.branch testDerived trueDerived falseDerived⟩

theorem loop_takes {nested : Parser Statement} (nestedTakes : TakesStatement nested)
    {limit line : Nat} {tokens : List Located} {parsed : Parsed Statement}
    (found : loop limit nested line tokens = .ok parsed) :
    Opens (.statement parsed.node) (⟨.keyword .whileWord, line⟩ :: tokens) parsed.rest := by
  obtain ⟨test, body, afterTest, testParsed, bodyParsed, isLoop⟩ := loop_eq_ok_iff.mp found
  obtain ⟨opened, closed, inner, rfl, depth, front, rfl, testDerived⟩ := condition_takes testParsed
  obtain ⟨bodyDepth, bodyFront, rfl, bodyDerived⟩ := blockOf_takes nestedTakes bodyParsed
  rw [isLoop]
  refine ⟨_, ⟨.keyword .whileWord, line⟩ :: ⟨.openParen, opened⟩ ::
    front ++ ⟨.closeParen, closed⟩ :: bodyFront, by simp, Derives.loop testDerived bodyDerived⟩

theorem print_takes {nested : Parser Statement} {limit line callerLine : Nat}
    {tokens : List Located} {parsed : Parsed Statement}
    (found : statementOf limit nested callerLine (⟨.keyword .printWord, line⟩ :: tokens) =
      .ok parsed) :
    Opens (.statement parsed.node) (⟨.keyword .printWord, line⟩ :: tokens) parsed.rest := by
  obtain ⟨value, valueParsed, isPrint⟩ := print_eq_ok_iff.mp found
  obtain ⟨closed, depth, front, rfl, derivation⟩ := closingExpression_takes valueParsed
  rw [isPrint]
  refine ⟨depth, ⟨.keyword .printWord, line⟩ :: front ++ [⟨.semicolon, closed⟩], by simp,
    Derives.print derivation⟩

theorem assign_takes {nested : Parser Statement} {limit line signLine callerLine : Nat}
    {target : String} {tokens : List Located} {parsed : Parsed Statement}
    (found : statementOf limit nested callerLine
      (⟨.identifier target, line⟩ :: ⟨.equals, signLine⟩ :: tokens) = .ok parsed) :
    Opens (.statement parsed.node)
      (⟨.identifier target, line⟩ :: ⟨.equals, signLine⟩ :: tokens) parsed.rest := by
  obtain ⟨value, valueParsed, isAssign⟩ := assign_eq_ok_iff.mp found
  obtain ⟨closed, depth, front, rfl, derivation⟩ := closingExpression_takes valueParsed
  rw [isAssign]
  refine ⟨depth, ⟨.identifier target, line⟩ :: ⟨.equals, signLine⟩ ::
    front ++ [⟨.semicolon, closed⟩], by simp, Derives.assign derivation⟩

theorem statementOf_takes {nested : Parser Statement} (nestedTakes : TakesStatement nested)
    (limit : Nat) : TakesStatement (statementOf limit nested) := by
  intro callerLine tokens parsed found
  cases tokens with
  | nil => simp [statementOf] at found
  | cons first rest =>
      obtain ⟨token, line⟩ := first
      cases token with
      | keyword word =>
          cases word with
          | letWord => exact declaration_takes found
          | ifWord => exact branch_takes nestedTakes found
          | whileWord => exact loop_takes nestedTakes found
          | printWord => exact print_takes found
          | elseWord => simp [statementOf] at found
      | identifier target =>
          by_cases assigns : Begins .equals rest
          · obtain ⟨signLine, inner, rfl⟩ := assigns
            exact assign_takes found
          · rw [statementOf_identifier assigns] at found
            simp at found
      | _ => simp [statementOf] at found

theorem statementWithin_takes (limit : Nat) : TakesStatement (statementWithin limit) := by
  induction limit with
  | zero =>
      intro line tokens parsed found
      simp [statementWithin] at found
  | succ limit ih => exact statementOf_takes ih limit

/-- Unlike the other parsers this one succeeds when its limit is used up, so the limit has to cover
the tokens. -/
theorem statementsWith_derives {nested : Parser Statement} (nestedTakes : TakesStatement nested)
    {limit : Nat} {tokens : List Located} {nodes : List Statement}
    (enough : tokens.length ≤ limit) (found : statementsWith nested limit tokens = .ok nodes) :
    ∃ depth, Derives (.statements nodes) depth tokens := by
  induction limit generalizing tokens nodes with
  | zero =>
      have empty : tokens = [] := List.length_eq_zero_iff.mp (by omega)
      simp only [statementsWith, Except.ok.injEq] at found
      subst tokens nodes
      exact ⟨0, Derives.nil⟩
  | succ limit ih =>
      cases tokens with
      | nil =>
          simp only [statementsWith, Except.ok.injEq] at found
          subst nodes
          exact ⟨0, Derives.nil⟩
      | cons next rest =>
          simp only [statementsWith, bind_eq_ok_iff, pure_eq_ok_iff] at found
          obtain ⟨first, firstParsed, others, othersParsed, rfl⟩ := found
          have opens := nestedTakes _ _ _ firstParsed
          have shorter := opens.shorter
          obtain ⟨depth, front, split, firstDerived⟩ := opens
          obtain ⟨othersDepth, othersDerived⟩ := ih (by omega) othersParsed
          rw [split]
          exact ⟨_, Derives.cons firstDerived othersDerived⟩

theorem statements_derives {tokens : List Located} {program : List Statement}
    (found : statements tokens = .ok program) : ∃ depth, Program depth tokens program :=
  statementsWith_derives (statementWithin_takes _) (Nat.le_refl _) found

end Parse

end WhileLang
