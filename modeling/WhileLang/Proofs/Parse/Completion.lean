import WhileLang.Proofs.Parse.Cut

/-!
Tokens that end too early can be completed. Whenever a parser reports the end of the input, all
tokens up to there are the beginning of a phrase of its kind, and the line that it reports is the
one it was given or that of one of these tokens.
-/

namespace WhileLang

namespace Grammar

def Expressed (rank : Nat) (tokens : List Located) : Prop :=
  ∃ depth node, Ranked rank depth tokens node

def Formed {α : Type} (kind : α → Phrase) (tokens : List Located) : Prop :=
  ∃ depth node, Derives (kind node) depth tokens

def Closed (ending : Token) (phrase : List Located → Prop) (tokens : List Located) : Prop :=
  ∃ front line, tokens = front ++ [⟨ending, line⟩] ∧ phrase front

def Enclosed (tokens : List Located) : Prop :=
  ∃ opened part, tokens = ⟨.openParen, opened⟩ :: part ∧ Closed .closeParen (Expressed 6) part

theorem expressed_true (rank : Nat) : Expressed rank [⟨.boolean true, 0⟩] :=
  ⟨0, _, Ranked.lift Ranked.boolean (Nat.zero_le rank)⟩

theorem Expressed.closed {rank : Nat} {tokens : List Located} (expressed : Expressed rank tokens)
    (ending : Token) : Closed ending (Expressed rank) (tokens ++ [⟨ending, 0⟩]) :=
  ⟨tokens, 0, rfl, expressed⟩

theorem formed_declare {name : String} {line nameLine signLine : Nat} {tokens : List Located}
    (closed : Closed .semicolon (Expressed 6) tokens) :
    Formed .statement (⟨.keyword .letWord, line⟩ :: ⟨.identifier name, nameLine⟩ ::
      ⟨.equals, signLine⟩ :: tokens) := by
  obtain ⟨front, endLine, rfl, depth, value, derivation⟩ := closed
  exact ⟨depth, _, Derives.declare derivation⟩

theorem formed_assign {name : String} {line signLine : Nat} {tokens : List Located}
    (closed : Closed .semicolon (Expressed 6) tokens) :
    Formed .statement (⟨.identifier name, line⟩ :: ⟨.equals, signLine⟩ :: tokens) := by
  obtain ⟨front, endLine, rfl, depth, value, derivation⟩ := closed
  exact ⟨depth, _, Derives.assign derivation⟩

theorem formed_print {line : Nat} {tokens : List Located}
    (closed : Closed .semicolon (Expressed 6) tokens) :
    Formed .statement (⟨.keyword .printWord, line⟩ :: tokens) := by
  obtain ⟨front, endLine, rfl, depth, value, derivation⟩ := closed
  exact ⟨depth, _, Derives.print derivation⟩

theorem formed_print_true :
    Formed .statement [⟨.keyword .printWord, 0⟩, ⟨.boolean true, 0⟩, ⟨.semicolon, 0⟩] :=
  formed_print ((expressed_true 6).closed .semicolon)

theorem formed_branch {line : Nat} {test whenTrue whenFalse : List Located}
    (enclosed : Enclosed test) (trueFormed : Formed .block whenTrue)
    (falseFormed : Formed .alternative whenFalse) :
    Formed .statement (⟨.keyword .ifWord, line⟩ :: (test ++ whenTrue ++ whenFalse)) := by
  obtain ⟨opened, _, rfl, front, closed, rfl, depth, condition, testDerived⟩ := enclosed
  obtain ⟨trueDepth, trueNodes, trueDerived⟩ := trueFormed
  obtain ⟨falseDepth, falseNodes, falseDerived⟩ := falseFormed
  have derivation : Derives (.statement (.branch condition trueNodes falseNodes line)) _
      (⟨.keyword .ifWord, line⟩ :: ⟨.openParen, opened⟩ ::
        front ++ ⟨.closeParen, closed⟩ :: whenTrue ++ whenFalse) :=
    Derives.branch testDerived trueDerived falseDerived
  rw [List.cons_append, List.append_assoc front]
  exact ⟨_, _, derivation⟩

theorem formed_loop {line : Nat} {test body : List Located} (enclosed : Enclosed test)
    (bodyFormed : Formed .block body) :
    Formed .statement (⟨.keyword .whileWord, line⟩ :: (test ++ body)) := by
  obtain ⟨opened, _, rfl, front, closed, rfl, depth, condition, testDerived⟩ := enclosed
  obtain ⟨bodyDepth, bodyNodes, bodyDerived⟩ := bodyFormed
  have derivation : Derives (.statement (.loop condition bodyNodes line)) _
      (⟨.keyword .whileWord, line⟩ :: ⟨.openParen, opened⟩ ::
        front ++ ⟨.closeParen, closed⟩ :: body) :=
    Derives.loop testDerived bodyDerived
  rw [List.cons_append, List.append_assoc front]
  exact ⟨_, _, derivation⟩

theorem formed_block {opened : Nat} {tokens : List Located}
    (closed : Closed .closeBrace (Formed .statements) tokens) :
    Formed .block (⟨.openBrace, opened⟩ :: tokens) := by
  obtain ⟨front, closedLine, rfl, depth, nodes, derivation⟩ := closed
  exact ⟨_, nodes, Derives.block derivation⟩

theorem closed_nil (line : Nat) : Closed .closeBrace (Formed .statements) [⟨.closeBrace, line⟩] :=
  ⟨[], line, rfl, 0, [], Derives.nil⟩

theorem formed_empty_block : Formed .block [⟨.openBrace, 0⟩, ⟨.closeBrace, 0⟩] :=
  formed_block (closed_nil 0)

theorem Closed.cons {front tokens : List Located} (firstFormed : Formed .statement front)
    (closed : Closed .closeBrace (Formed .statements) tokens) :
    Closed .closeBrace (Formed .statements) (front ++ tokens) := by
  obtain ⟨depth, first, firstDerived⟩ := firstFormed
  obtain ⟨back, line, rfl, othersDepth, others, othersDerived⟩ := closed
  exact ⟨front ++ back, line, by rw [List.append_assoc], _, _,
    Derives.cons firstDerived othersDerived⟩

theorem formed_without_else : Formed .alternative [] := ⟨0, [], Derives.withoutElse⟩

theorem Formed.elseBlock {line : Nat} {tokens : List Located} (formed : Formed .block tokens) :
    Formed .alternative (⟨.keyword .elseWord, line⟩ :: tokens) := by
  obtain ⟨depth, nodes, derivation⟩ := formed
  exact ⟨depth, nodes, Derives.elseBlock derivation⟩

theorem Formed.elseIf {line : Nat} {tokens : List Located} (formed : Formed .statement tokens)
    (begins : Parse.Begins (.keyword .ifWord) tokens) :
    Formed .alternative (⟨.keyword .elseWord, line⟩ :: tokens) := by
  obtain ⟨depth, node, derivation⟩ := formed
  obtain ⟨condition, whenTrue, whenFalse, branchLine, rfl⟩ := derivation.branch_of_begins begins
  exact ⟨depth, _, Derives.elseIf derivation⟩

end Grammar

namespace Parse

open Grammar

/-- If the result is that the tokens ended too early, more tokens make a phrase of them, and the
line is the given one or that of one of the tokens. -/
def Wants {α : Type} (phrase : List Located → Prop) (line : Nat) (tokens : List Located)
    (result : Except Error α) : Prop :=
  ∀ ended, result = .error ⟨ended, .endOfInput⟩ →
    (∃ more, phrase (tokens ++ more)) ∧ (ended = line ∨ ∃ found ∈ tokens, found.line = ended)

/-- On up to `bound` tokens the parser reports the end of the input only inside a phrase. -/
def Completes {α : Type} (bound : Nat) (phrase : List Located → Prop) (parser : Parser α) : Prop :=
  ∀ line tokens, tokens.length ≤ bound → Wants phrase line tokens (parser line tokens)

section

variable {α β : Type} {phrase inner : List Located → Prop} {line innerLine : Nat}
  {tokens rest : List Located}

theorem Wants.ok (value : α) : Wants phrase line tokens (.ok value) := nofun

theorem Wants.of_fault {error : Error} (other : error.fault ≠ .endOfInput) :
    Wants phrase line tokens (.error error : Except Error α) := by
  rintro ended ⟨⟩
  exact absurd rfl other

theorem Wants.at_end {more : List Located} (completed : phrase (tokens ++ more)) :
    Wants phrase line tokens (.error ⟨line, .endOfInput⟩ : Except Error α) := by
  rintro ended ⟨⟩
  exact ⟨⟨more, completed⟩, .inl rfl⟩

theorem Wants.bind {first : Except Error α} {next : α → Except Error β}
    (firstWants : Wants phrase line tokens first)
    (nextWants : ∀ value, first = .ok value → Wants phrase line tokens (next value)) :
    Wants phrase line tokens (first >>= next) := by
  cases first with
  | error error =>
      intro ended failed
      exact firstWants ended (congrArg Except.error (Except.error.inj failed))
  | ok value => exact nextWants value rfl

theorem Wants.map {first : Except Error α} (firstWants : Wants phrase line tokens first)
    (change : α → β) : Wants phrase line tokens (do return change (← first)) :=
  firstWants.bind fun value _ => .ok (change value)

theorem Wants.begins {found : Located} {result : Except Error α}
    (wants : Wants phrase line (found :: rest) result) :
    Wants (fun part => phrase part ∧ Begins found.token part) line (found :: rest) result := by
  intro ended failed
  obtain ⟨⟨more, completed⟩, place⟩ := wants ended failed
  exact ⟨⟨more, completed, by simp⟩, place⟩

theorem Wants.behind {result : Except Error α} (wants : Wants inner innerLine rest result)
    (front : List Located)
    (given : innerLine = line ∨ ∃ found ∈ front ++ rest, found.line = innerLine)
    (whole : ∀ part, inner part → ∃ more, phrase (front ++ part ++ more)) :
    Wants phrase line (front ++ rest) result := by
  intro ended failed
  obtain ⟨⟨more, completed⟩, place⟩ := wants ended failed
  obtain ⟨further, isPhrase⟩ := whole _ completed
  refine ⟨⟨more ++ further, by simpa using isPhrase⟩, ?_⟩
  rcases place with rfl | ⟨found, isMember, isLine⟩
  · exact given
  · exact .inr ⟨found, List.mem_append_right front isMember, isLine⟩

theorem Wants.last {result : Except Error α} (wants : Wants inner innerLine rest result)
    (front : List Located)
    (given : innerLine = line ∨ ∃ found ∈ front ++ rest, found.line = innerLine)
    (whole : ∀ part, inner part → phrase (front ++ part)) :
    Wants phrase line (front ++ rest) result :=
  wants.behind front given fun part isPart => ⟨[], by simpa using whole part isPart⟩

theorem Wants.first {result : Except Error α} (wants : Wants inner line tokens result)
    (whole : ∀ part, inner part → ∃ more, phrase (part ++ more)) :
    Wants phrase line tokens result :=
  wants.behind [] (.inl rfl) whole

end

def Just (token : Token) (tokens : List Located) : Prop := ∃ line, tokens = [⟨token, line⟩]

theorem expect_wants (expected : Token) (line : Nat) (tokens : List Located) :
    Wants (Just expected) line tokens (expect expected line tokens) := by
  cases tokens with
  | nil => exact .at_end ⟨0, rfl⟩
  | cons found rest =>
      by_cases same : found.token = expected
      · rw [expect, if_pos same]
        exact .ok _
      · rw [expect, if_neg same]
        exact .of_fault (by simp)

theorem closedBy_wants {ending : Token} {parser : Parser Expression} {rank line : Nat}
    {tokens : List Located} (takes : TakesRanked parser rank)
    (wants : Wants (Expressed rank) line tokens (parser line tokens)) :
    Wants (Closed ending (Expressed rank)) line tokens (closedBy ending parser line tokens) := by
  apply Wants.bind
  · exact wants.first fun part expressed => ⟨_, expressed.closed ending⟩
  · intro inner parsed
    obtain ⟨depth, front, rfl, derivation⟩ := takes _ _ _ parsed
    apply Wants.map
    refine (expect_wants ending line inner.rest).last front (.inl rfl) ?_
    rintro _ ⟨closed, rfl⟩
    exact ⟨front, closed, rfl, depth, inner.node, derivation⟩

theorem operand_wants {bound : Nat} {group : Parser Expression} (takes : TakesRanked group 6)
    (completes : Completes bound (Expressed 6) group) :
    Completes (bound + 1) (Expressed 0) (operand group) := by
  intro line tokens within
  cases tokens with
  | nil => exact .at_end (expressed_true 0)
  | cons found rest =>
      obtain ⟨token, tokenLine⟩ := found
      simp only [List.length_cons] at within
      cases token with
      | openParen =>
          have inner : Wants (Closed .closeParen (Expressed 6)) tokenLine rest
              (closedBy .closeParen group tokenLine rest) :=
            closedBy_wants takes (completes tokenLine rest (by omega))
          refine inner.last [⟨.openParen, tokenLine⟩] (.inr ⟨_, List.mem_cons_self, rfl⟩) ?_
          rintro _ ⟨front, closed, rfl, depth, node, derivation⟩
          exact ⟨depth + 1, node, Ranked.group derivation⟩
      | number | boolean | identifier => exact .ok _
      | _ => exact .of_fault (by simp)

/-- The node that the loop starts from is given with the tokens it was made of. -/
theorem joined_wants {bound rank : Nat} {next : Parser Expression} (takes : TakesRanked next rank)
    (completes : Completes bound (Expressed rank) next) {limit line : Nat} {left : Expression}
    {front tokens : List Located} (leftExpressed : Expressed (rank + 1) front)
    (within : tokens.length ≤ bound) :
    Wants (fun part => Expressed (rank + 1) (front ++ part)) line tokens
      (joined (rank + 1) next limit left tokens) := by
  induction limit generalizing left front tokens with
  | zero => exact .ok _
  | succ limit ih =>
      by_cases continues : ∃ op, Begins (.operator op) tokens ∧ op.rank = rank + 1
      · obtain ⟨op, ⟨opLine, rest, rfl⟩, sameRank⟩ := continues
        simp only [List.length_cons] at within
        have joins (right : List Located) (rightExpressed : Expressed rank right) :
            Expressed (rank + 1) (front ++ ⟨.operator op, opLine⟩ :: right) := by
          obtain ⟨leftDepth, leftNode, leftDerived⟩ := leftExpressed
          obtain ⟨rightDepth, rightNode, rightDerived⟩ := rightExpressed
          have member : op ∈ joining (rank + 1) := (mem_joining_iff op _).mpr sameRank
          exact ⟨_, _, Ranked.join leftDerived member rightDerived⟩
        rw [joined_operator sameRank]
        apply Wants.bind
        · exact (completes opLine rest (by omega)).last [⟨.operator op, opLine⟩]
            (.inr ⟨_, List.mem_cons_self, rfl⟩) joins
        · intro right rightParsed
          obtain ⟨rightDepth, rightFront, rfl, rightDerived⟩ := takes _ _ _ rightParsed
          simp only [List.length_append] at within
          -- The next round starts from a longer expression on the left.
          have leftExpressed := joins rightFront ⟨rightDepth, right.node, rightDerived⟩
          refine (ih leftExpressed (by omega)).last (⟨.operator op, opLine⟩ :: rightFront)
            (.inl rfl) ?_
          intro part expressed
          rwa [← List.append_assoc]
      · have ends : Ends (rank + 1) tokens := fun op begins same => continues ⟨op, begins, same⟩
        rw [joined_ends ends]
        exact .ok _

theorem ranked_wants {bound limit : Nat} {group : Parser Expression} (takes : TakesRanked group 6)
    (completes : Completes bound (Expressed 6) group) (rank : Nat) :
    Completes (bound + 1) (Expressed rank) (ranked limit group rank) := by
  induction rank with
  | zero => exact operand_wants takes completes
  | succ rank ih =>
      intro line tokens within
      have lift (part : List Located) (expressed : Expressed rank part) :
          Expressed (rank + 1) part := by
        obtain ⟨depth, node, derivation⟩ := expressed
        exact ⟨depth, node, Ranked.operand derivation⟩
      apply Wants.bind
      · exact (ih line tokens within).last [] (.inl rfl) lift
      · intro left leftParsed
        obtain ⟨depth, front, rfl, derivation⟩ := ranked_takes takes rank _ _ _ leftParsed
        simp only [List.length_append] at within
        have leftExpressed := lift front ⟨depth, left.node, derivation⟩
        exact (joined_wants (ranked_takes takes rank) ih leftExpressed (by omega)).last front
          (.inl rfl) fun _ expressed => expressed

theorem expressionWithin_wants (limit : Nat) :
    Completes limit (Expressed 6) (expressionWithin limit) := by
  induction limit with
  | zero =>
      intro line tokens within
      have empty : tokens = [] := List.length_eq_zero_iff.mp (by omega)
      subst tokens
      exact .at_end (expressed_true 6)
  | succ limit ih => exact ranked_wants (expressionWithin_takes limit) ih Operator.loosest

theorem closingExpression_wants (limit : Nat) :
    Completes limit (Closed .semicolon (Expressed 6)) (closingExpression limit) := by
  intro line tokens within
  exact closedBy_wants (expressionWithin_takes limit)
    (expressionWithin_wants limit line tokens within)

theorem condition_wants (limit : Nat) : Completes limit Enclosed (condition limit) := by
  intro line tokens within
  apply Wants.bind
  · refine (expect_wants .openParen line tokens).first ?_
    rintro _ ⟨opened, rfl⟩
    exact ⟨_, opened, _, rfl, (expressed_true 6).closed .closeParen⟩
  · intro opened openedParsed
    obtain rfl := expect_eq_ok_iff.mp openedParsed
    simp only [List.length_cons] at within
    have inner : Wants (Closed .closeParen (Expressed 6)) line opened.rest
        (closedBy .closeParen (expressionWithin limit) line opened.rest) :=
      closedBy_wants (expressionWithin_takes limit)
        (expressionWithin_wants limit line opened.rest (by omega))
    exact inner.last [⟨.openParen, opened.node⟩] (.inl rfl) fun part closed =>
      ⟨opened.node, part, rfl, closed⟩

theorem condition_enclosed {limit line : Nat} {tokens : List Located} {parsed : Parsed Expression}
    (found : condition limit line tokens = .ok parsed) :
    ∃ front, tokens = front ++ parsed.rest ∧ Enclosed front := by
  obtain ⟨opened, closed, inner, rfl, depth, front, rfl, derivation⟩ := condition_takes found
  exact ⟨⟨.openParen, opened⟩ :: (front ++ [⟨.closeParen, closed⟩]), by simp, opened, _, rfl, front,
    closed, rfl, depth, _, derivation⟩

theorem name_wants (line : Nat) (tokens : List Located) :
    Wants (fun part => ∃ name nameLine, part = [⟨.identifier name, nameLine⟩]) line tokens
      (name line tokens) := by
  cases tokens with
  | nil => exact .at_end ⟨"x", 0, rfl⟩
  | cons found rest =>
      obtain ⟨token, tokenLine⟩ := found
      cases token with
      | identifier text => exact .ok _
      | boolean value => cases value <;> exact .of_fault (by simp)
      | _ => exact .of_fault (by simp)

theorem declaration_wants {limit line : Nat} {tokens : List Located}
    (within : tokens.length ≤ limit) :
    Wants (fun part => Formed .statement (⟨.keyword .letWord, line⟩ :: part)) line tokens
      (declaration limit line tokens) := by
  have value := (expressed_true 6).closed .semicolon
  apply Wants.bind
  · refine (name_wants line tokens).first ?_
    rintro _ ⟨target, nameLine, rfl⟩
    exact ⟨⟨.equals, 0⟩ :: _, formed_declare value⟩
  · intro target targetParsed
    obtain ⟨nameLine, rfl⟩ := name_eq_ok_iff.mp targetParsed
    apply Wants.bind
    · refine (expect_wants .equals line target.rest).behind [⟨.identifier target.node, nameLine⟩]
        (.inl rfl) ?_
      rintro _ ⟨signLine, rfl⟩
      exact ⟨_, formed_declare value⟩
    · intro sign signParsed
      have isRest := expect_eq_ok_iff.mp signParsed
      rw [isRest] at within ⊢
      simp only [List.length_cons] at within
      apply Wants.map
      exact (closingExpression_wants limit line sign.rest (by omega)).last
        [⟨.identifier target.node, nameLine⟩, ⟨.equals, sign.node⟩] (.inl rfl) fun _ closed =>
        formed_declare closed

section

variable {bound limit : Nat} {nested : Parser Statement}

theorem blockRest_wants (takes : TakesStatement nested)
    (completes : Completes bound (Formed .statement) nested) {opened : Nat}
    {tokens : List Located} (within : tokens.length ≤ bound) (enough : tokens.length ≤ limit) :
    Wants (Closed .closeBrace (Formed .statements)) opened tokens
      (blockRest nested opened limit tokens) := by
  induction limit generalizing tokens with
  | zero =>
      have empty : tokens = [] := List.length_eq_zero_iff.mp (by omega)
      subst tokens
      exact .at_end (closed_nil 0)
  | succ limit ih =>
      cases tokens with
      | nil => exact .at_end (closed_nil 0)
      | cons found rest =>
          by_cases closes : found.token = .closeBrace
          · rw [blockRest, if_pos closes]
            exact .ok _
          · rw [blockRest, if_neg closes]
            apply Wants.bind
            · refine (completes found.line (found :: rest) within).behind [] ?_ ?_
              · exact .inr ⟨found, List.mem_cons_self, rfl⟩
              · intro part formed
                exact ⟨_, Closed.cons formed (closed_nil 0)⟩
            · intro first firstParsed
              have shorter := (takes _ _ _ firstParsed).shorter
              obtain ⟨depth, front, split, derivation⟩ := takes _ _ _ firstParsed
              rw [split]
              apply Wants.map
              exact (ih (by omega) (by omega)).last front (.inl rfl) fun _ closed =>
                Closed.cons ⟨depth, first.node, derivation⟩ closed

theorem blockOf_wants (takes : TakesStatement nested)
    (completes : Completes bound (Formed .statement) nested) (enough : bound ≤ limit) :
    Completes bound (Formed .block) (blockOf limit nested) := by
  intro line tokens within
  apply Wants.bind
  · refine (expect_wants .openBrace line tokens).first ?_
    rintro _ ⟨opened, rfl⟩
    exact ⟨[⟨.closeBrace, 0⟩], formed_block (closed_nil 0)⟩
  · intro opened openedParsed
    obtain rfl := expect_eq_ok_iff.mp openedParsed
    simp only [List.length_cons] at within
    exact (blockRest_wants takes completes (by omega) (by omega)).last
      [⟨.openBrace, opened.node⟩] (.inr ⟨_, List.mem_cons_self, rfl⟩) fun _ closed =>
      formed_block closed

theorem alternative_wants (takes : TakesStatement nested)
    (completes : Completes bound (Formed .statement) nested) (enough : bound ≤ limit)
    {line : Nat} {tokens : List Located} (within : tokens.length ≤ bound) :
    Wants (Formed .alternative) line tokens (alternative limit nested tokens) := by
  by_cases hasElse : Begins (.keyword .elseWord) tokens
  · obtain ⟨elseLine, rest, rfl⟩ := hasElse
    simp only [List.length_cons] at within
    by_cases hasIf : Begins (.keyword .ifWord) rest
    · obtain ⟨ifLine, others, rfl⟩ := hasIf
      -- What completes the tokens begins with `if` like them, so it is a branch.
      have chained := completes elseLine (⟨.keyword .ifWord, ifLine⟩ :: others) (by omega)
      rw [alternative_chained]
      exact (chained.begins.map _).last [⟨.keyword .elseWord, elseLine⟩]
        (.inr ⟨_, List.mem_cons_self, rfl⟩) fun _ ⟨formed, beginsIf⟩ => formed.elseIf beginsIf
    · rw [alternative_block hasIf]
      exact (blockOf_wants takes completes enough elseLine rest (by omega)).last
        [⟨.keyword .elseWord, elseLine⟩] (.inr ⟨_, List.mem_cons_self, rfl⟩) fun _ formed =>
        formed.elseBlock
  · rw [alternative_without hasElse]
    exact .ok _

theorem branch_wants (takes : TakesStatement nested)
    (completes : Completes bound (Formed .statement) nested) (enough : bound ≤ limit)
    {line : Nat} {tokens : List Located} (within : tokens.length ≤ bound) :
    Wants (fun part => Formed .statement (⟨.keyword .ifWord, line⟩ :: part)) line tokens
      (branch limit nested line tokens) := by
  apply Wants.bind
  · refine (condition_wants limit line tokens (by omega)).first ?_
    intro part enclosed
    exact ⟨_, by simpa using formed_branch enclosed formed_empty_block formed_without_else⟩
  · intro test testParsed
    obtain ⟨testFront, rfl, enclosed⟩ := condition_enclosed testParsed
    simp only [List.length_append] at within
    apply Wants.bind
    · exact (blockOf_wants takes completes enough line test.rest (by omega)).behind testFront
        (.inl rfl) fun _ formed => ⟨[], formed_branch enclosed formed formed_without_else⟩
    · intro whenTrue trueParsed
      obtain ⟨trueDepth, trueFront, isRest, trueDerived⟩ := blockOf_takes takes trueParsed
      rw [isRest, List.length_append] at within
      rw [isRest, ← List.append_assoc]
      apply Wants.map
      exact (alternative_wants takes completes enough (by omega)).last (testFront ++ trueFront)
        (.inl rfl) fun _ formed => formed_branch enclosed ⟨trueDepth, _, trueDerived⟩ formed

theorem loop_wants (takes : TakesStatement nested)
    (completes : Completes bound (Formed .statement) nested) (enough : bound ≤ limit)
    {line : Nat} {tokens : List Located} (within : tokens.length ≤ bound) :
    Wants (fun part => Formed .statement (⟨.keyword .whileWord, line⟩ :: part)) line tokens
      (loop limit nested line tokens) := by
  apply Wants.bind
  · refine (condition_wants limit line tokens (by omega)).first ?_
    intro part enclosed
    exact ⟨_, formed_loop enclosed formed_empty_block⟩
  · intro test testParsed
    obtain ⟨testFront, rfl, enclosed⟩ := condition_enclosed testParsed
    simp only [List.length_append] at within
    apply Wants.map
    exact (blockOf_wants takes completes enough line test.rest (by omega)).last testFront
      (.inl rfl) fun _ formed => formed_loop enclosed formed

theorem statementOf_wants (takes : TakesStatement nested)
    (completes : Completes bound (Formed .statement) nested) (enough : bound ≤ limit) :
    Completes (bound + 1) (Formed .statement) (statementOf limit nested) := by
  intro callerLine tokens within
  cases tokens with
  | nil => exact .at_end formed_print_true
  | cons first rest =>
      simp only [List.length_cons] at within
      obtain ⟨token, line⟩ := first
      -- Every form of statement is parsed with the line of its first token.
      have onLine : line = callerLine ∨ ∃ found ∈ [⟨token, line⟩] ++ rest, found.line = line :=
        .inr ⟨_, List.mem_cons_self, rfl⟩
      cases token with
      | keyword word =>
          cases word with
          | letWord =>
              exact (declaration_wants (by omega)).last [_] onLine fun _ formed => formed
          | ifWord =>
              exact (branch_wants takes completes enough (by omega)).last [_] onLine
                fun _ formed => formed
          | whileWord =>
              exact (loop_wants takes completes enough (by omega)).last [_] onLine
                fun _ formed => formed
          | printWord =>
              apply Wants.map
              exact (closingExpression_wants limit line rest (by omega)).last [_] onLine
                fun _ closed => formed_print closed
          | elseWord => exact .of_fault (by simp)
      | identifier target =>
          by_cases assigns : Begins .equals rest
          · obtain ⟨signLine, inner, rfl⟩ := assigns
            simp only [List.length_cons] at within
            apply Wants.map
            exact (closingExpression_wants limit line inner (by omega)).last
              [⟨.identifier target, line⟩, ⟨.equals, signLine⟩] onLine fun _ closed =>
              formed_assign closed
          · rw [statementOf_identifier assigns]
            exact .of_fault (by simp)
      | _ => exact .of_fault (by simp)

end

theorem statementWithin_wants (limit : Nat) :
    Completes limit (Formed .statement) (statementWithin limit) := by
  induction limit with
  | zero =>
      intro line tokens within
      have empty : tokens = [] := List.length_eq_zero_iff.mp (by omega)
      subst tokens
      exact .at_end formed_print_true
  | succ limit ih => exact statementOf_wants (statementWithin_takes limit) ih (Nat.le_refl limit)

end Parse

end WhileLang
