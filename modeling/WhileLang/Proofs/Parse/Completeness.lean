import WhileLang.Proofs.Parse.Limit

/-!
What the grammar derives, the parsers take off the front of the tokens, whatever follows, as long
as the limits cover the tokens and what follows cannot belong to the phrase: no operator that binds
as tightly goes on with an expression, and no `else` goes on with a branch that has none.
-/

namespace WhileLang.Parse

open Grammar

def Stops (rank : Nat) (rest : List Located) : Prop :=
  ∀ op, Begins (.operator op) rest → rank < op.rank

theorem Stops.ends {rank : Nat} {rest : List Located} (stops : Stops rank rest) :
    Ends rank rest := by
  intro op begins same
  have above := stops op begins
  omega

theorem Stops.lower {rank : Nat} {rest : List Located} (stops : Stops (rank + 1) rest) :
    Stops rank rest := by
  intro op begins
  have above := stops op begins
  omega

theorem stops_of_token {token : Token} {line rank : Nat} {rest : List Located}
    (noOperator : token.operator? = none) : Stops rank (⟨token, line⟩ :: rest) := by
  intro op begins
  rw [begins_cons] at begins
  subst begins
  simp [Token.operator?] at noOperator

def rankedWithin (limit rank : Nat) : Parser Expression :=
  ranked limit (expressionWithin (limit - 1)) rank

theorem expressionWithin_eq_rankedWithin {limit : Nat} (positive : 0 < limit) :
    expressionWithin limit = rankedWithin limit 6 := by
  cases limit with
  | zero => omega
  | succ limit => rfl

def Reads (rank : Nat) (front : List Located) (node : Expression) : Prop :=
  ∀ limit line rest, (front ++ rest).length ≤ limit → Stops rank rest →
    rankedWithin limit rank line (front ++ rest) = .ok ⟨node, rest⟩

/-- The parser of the rank above reaches its loop with this node, whether or not the loop ends
there. Left operands are joined before it is known what follows, so this is what an induction over
left nested nodes carries. -/
def Reaches (rank : Nat) (front : List Located) (node : Expression) : Prop :=
  ∀ limit line rest, (front ++ rest).length ≤ limit → Stops rank rest →
    ∃ remaining, rest.length ≤ remaining ∧
      rankedWithin limit (rank + 1) line (front ++ rest) =
        joined (rank + 1) (rankedWithin limit rank) remaining node rest

theorem Reaches.reads {rank : Nat} {front : List Located} {node : Expression}
    (reaches : Reaches rank front node) : Reads (rank + 1) front node := by
  intro limit line rest enough stops
  obtain ⟨remaining, _, found⟩ := reaches limit line rest enough stops.lower
  rw [found, joined_ends stops.ends]

theorem Reads.reaches {rank : Nat} {front : List Located} {node : Expression}
    (reads : Reads rank front node) : Reaches rank front node := by
  intro limit line rest enough stops
  refine ⟨limit, ?_, ?_⟩
  · simp only [List.length_append] at enough
    omega
  · have found := reads limit line rest enough stops
    simp only [rankedWithin] at found
    simp only [rankedWithin, ranked, found]
    rfl

theorem Reaches.join {rank : Nat} {op : Operator} {left right : List Located}
    {leftNode rightNode : Expression} (line : Nat) (leftReaches : Reaches rank left leftNode)
    (sameRank : op.rank = rank + 1) (rightReads : Reads rank right rightNode) :
    Reaches rank (left ++ ⟨.operator op, line⟩ :: right)
      (.binary op leftNode rightNode line) := by
  intro limit callerLine rest enough stops
  have leftStops : Stops rank (⟨.operator op, line⟩ :: right ++ rest) := by
    intro other begins
    simp only [List.cons_append, begins_cons, Token.operator.injEq] at begins
    subst other
    omega
  simp only [List.length_append, List.length_cons] at enough
  obtain ⟨remaining, covers, found⟩ :=
    leftReaches limit callerLine _ (by simp only [List.length_append, List.length_cons]; omega)
      leftStops
  simp only [List.cons_append, List.length_cons, List.length_append] at covers
  cases remaining with
  | zero => omega
  | succ remaining =>
      refine ⟨remaining, by omega, ?_⟩
      have rightFound := rightReads limit line rest
        (by simp only [List.length_append]; omega) stops
      rw [List.append_assoc, found, List.cons_append, joined_operator sameRank, rightFound]
      rfl

theorem Reads.group {front : List Located} {node : Expression} {opened closed : Nat}
    (inner : Reads 6 front node) (nonempty : 0 < front.length) :
    Reads 0 (⟨.openParen, opened⟩ :: front ++ [⟨.closeParen, closed⟩]) node := by
  intro limit line rest enough _
  simp only [List.length_append, List.length_cons, List.length_nil] at enough
  have innerFound := inner (limit - 1) opened (⟨.closeParen, closed⟩ :: rest)
    (by simp only [List.length_append, List.length_cons]; omega) (stops_of_token rfl)
  rw [← expressionWithin_eq_rankedWithin (by omega)] at innerFound
  simp only [rankedWithin, ranked, List.cons_append, List.append_assoc, List.nil_append, operand,
    innerFound]
  rfl

theorem reads_of_ranked {rank depth : Nat} {front : List Located} {node : Expression}
    (derivation : Ranked rank depth front node) : Reads rank front node := by
  suffices both : Reads rank front node ∧
      ∀ lower, rank = lower + 1 → Reaches lower front node from both.1
  induction derivation with
  | number | boolean | reference =>
      exact ⟨fun limit line rest _ _ => rfl, fun lower impossible => by omega⟩
  | group inner ih =>
      exact ⟨ih.1.group inner.nonempty, fun lower impossible => by omega⟩
  | operand _ ih =>
      have reaches := ih.1.reaches
      refine ⟨reaches.reads, ?_⟩
      intro lower same
      obtain rfl : _ = lower := Nat.succ.inj same
      exact reaches
  | @join rank op _ _ _ _ _ _ line _ member _ leftIh rightIh =>
      have sameRank : op.rank = rank + 1 := (mem_joining_iff op _).mp member
      have reaches := (leftIh.2 rank rfl).join line sameRank rightIh.1
      refine ⟨reaches.reads, ?_⟩
      intro lower same
      obtain rfl : _ = lower := Nat.succ.inj same
      exact reaches

theorem expressionWithin_reads {depth limit line : Nat} {front rest : List Located}
    {node : Expression} (derivation : Ranked 6 depth front node)
    (enough : (front ++ rest).length ≤ limit) (stops : Stops 6 rest) :
    expressionWithin limit line (front ++ rest) = .ok ⟨node, rest⟩ := by
  have nonempty := derivation.nonempty
  rw [expressionWithin_eq_rankedWithin]
  · exact reads_of_ranked derivation limit line rest enough stops
  · simp only [List.length_append] at enough
    omega

theorem closingExpression_reads {depth limit line closed : Nat} {front rest : List Located}
    {node : Expression} (derivation : Ranked 6 depth front node)
    (enough : (front ++ ⟨.semicolon, closed⟩ :: rest).length ≤ limit) :
    closingExpression limit line (front ++ ⟨.semicolon, closed⟩ :: rest) = .ok ⟨node, rest⟩ :=
  closingExpression_eq_ok_iff.mpr
    ⟨closed, expressionWithin_reads derivation enough (stops_of_token rfl)⟩

theorem condition_reads {depth limit line opened closed : Nat} {front rest : List Located}
    {node : Expression} (derivation : Ranked 6 depth front node)
    (enough : (front ++ ⟨.closeParen, closed⟩ :: rest).length ≤ limit) :
    condition limit line (⟨.openParen, opened⟩ :: front ++ ⟨.closeParen, closed⟩ :: rest) =
      .ok ⟨node, rest⟩ :=
  condition_eq_ok_iff.mpr
    ⟨opened, closed, _, rfl, expressionWithin_reads derivation enough (stops_of_token rfl)⟩

def Separate (phrase : Phrase) (front rest : List Located) : Prop :=
  Dangles phrase front → ¬ Begins (.keyword .elseWord) rest

/-- The parser of a phrase takes these tokens for it. A list of statements is read by two loops,
one up to a closing brace and one up to the end of the tokens. -/
def ReadsPhrase : Phrase → List Located → Prop
  | .statement node, front => ∀ limit line rest, (front ++ rest).length ≤ limit →
      Separate (.statement node) front rest →
      statementWithin limit line (front ++ rest) = .ok ⟨node, rest⟩
  | .statements nodes, front =>
      (∀ inner limit opened closed rest,
        (front ++ ⟨.closeBrace, closed⟩ :: rest).length ≤ inner →
        (front ++ ⟨.closeBrace, closed⟩ :: rest).length ≤ limit →
        blockRest (statementWithin inner) opened limit (front ++ ⟨.closeBrace, closed⟩ :: rest) =
          .ok ⟨nodes, rest⟩) ∧
      (∀ inner limit rest, (front ++ rest).length ≤ inner → (front ++ rest).length ≤ limit →
        Separate (.statements nodes) front rest →
        ∃ remaining, rest.length ≤ remaining ∧
          statementsWith (statementWithin inner) limit (front ++ rest) =
            (statementsWith (statementWithin inner) remaining rest).map (nodes ++ ·))
  | .block nodes, front => ∀ limit line rest, (front ++ rest).length ≤ limit →
      blockOf limit (statementWithin limit) line (front ++ rest) = .ok ⟨nodes, rest⟩
  | .alternative nodes, front => ∀ limit rest, (front ++ rest).length ≤ limit →
      Separate (.alternative nodes) front rest →
      alternative limit (statementWithin limit) (front ++ rest) = .ok ⟨nodes, rest⟩

theorem Separate.first {first : Statement} {others : List Statement} {othersDepth : Nat}
    {front back rest : List Located} (othersDerived : Derives (.statements others) othersDepth back)
    (separate : Separate (.statements (first :: others)) (front ++ back) rest) :
    Separate (.statement first) front (back ++ rest) := by
  intro dangles
  cases othersDerived with
  | nil =>
      rw [List.append_nil] at separate
      exact separate (Dangles.last dangles)
  | cons nextDerived _ =>
      obtain ⟨found, others, rfl, _, notElse⟩ := nextDerived.statement_head
      simpa using notElse

theorem readsPhrase_cons {first : Statement} {others : List Statement} {depth othersDepth : Nat}
    {front back : List Located} (firstDerived : Derives (.statement first) depth front)
    (othersDerived : Derives (.statements others) othersDepth back)
    (firstReads : ReadsPhrase (.statement first) front)
    (othersRead : ReadsPhrase (.statements others) back) :
    ReadsPhrase (.statements (first :: others)) (front ++ back) := by
  obtain ⟨found, tail, rfl, notClosed, _⟩ := firstDerived.statement_head
  constructor
  · intro inner limit opened closed rest enoughInner enough
    have noElse : ¬ Begins (.keyword .elseWord) (back ++ ⟨.closeBrace, closed⟩ :: rest) :=
      othersDerived.statements_noElse (by simp)
    simp only [List.length_append, List.length_cons] at enoughInner enough
    have firstFound := firstReads inner found.line (back ++ ⟨.closeBrace, closed⟩ :: rest)
      (by simp only [List.length_append, List.length_cons]; omega) (fun _ => noElse)
    cases limit with
    | zero => omega
    | succ limit =>
        have othersFound := othersRead.1 inner limit opened closed rest
          (by simp only [List.length_append, List.length_cons]; omega)
          (by simp only [List.length_append, List.length_cons]; omega)
        simp only [List.cons_append] at firstFound
        simp only [List.cons_append, List.append_assoc, blockRest, notClosed, if_false,
          firstFound, othersFound, bind, Except.bind]
        rfl
  · intro inner limit rest enoughInner enough separate
    have othersSeparate : Separate (.statements others) back rest :=
      fun dangles => separate (Dangles.later firstDerived dangles)
    simp only [List.length_append, List.length_cons] at enoughInner enough
    have firstFound := firstReads inner found.line (back ++ rest)
      (by simp only [List.length_append, List.length_cons]; omega) (separate.first othersDerived)
    cases limit with
    | zero => omega
    | succ limit =>
        obtain ⟨remaining, covers, othersFound⟩ := othersRead.2 inner limit rest
          (by simp only [List.length_append]; omega)
          (by simp only [List.length_append]; omega) othersSeparate
        refine ⟨remaining, covers, ?_⟩
        simp only [List.cons_append] at firstFound
        simp only [List.cons_append, List.append_assoc, statementsWith, firstFound, othersFound,
          bind, Except.bind]
        cases statementsWith (statementWithin inner) remaining rest with
        | error error => rfl
        | ok nodes => rfl

theorem readsPhrase_statement {node : Statement} {front : List Located}
    (nonempty : 0 < front.length)
    (reads : ∀ limit line rest, (front ++ rest).length ≤ limit + 1 →
      Separate (.statement node) front rest →
      statementOf limit (statementWithin limit) line (front ++ rest) = .ok ⟨node, rest⟩) :
    ReadsPhrase (.statement node) front := by
  intro limit line rest enough separate
  cases limit with
  | zero =>
      simp only [List.length_append] at enough
      omega
  | succ limit => exact reads limit line rest enough separate

theorem readsPhrase_of_derives {phrase : Phrase} {depth : Nat} {front : List Located}
    (derivation : Derives phrase depth front) : ReadsPhrase phrase front := by
  induction derivation with
  | declare valueDerived =>
      refine readsPhrase_statement (by simp) ?_
      intro limit line rest enough _
      simp only [List.length_append, List.length_cons, List.length_nil] at enough
      simp only [List.cons_append, List.append_assoc, List.nil_append]
      refine declaration_eq_ok_iff.mpr ⟨_, _, _, _, _, rfl, ?_, rfl⟩
      apply closingExpression_reads valueDerived
      simp only [List.length_append, List.length_cons]
      omega
  | assign valueDerived =>
      refine readsPhrase_statement (by simp) ?_
      intro limit line rest enough _
      simp only [List.length_append, List.length_cons, List.length_nil] at enough
      simp only [List.cons_append, List.append_assoc, List.nil_append]
      refine assign_eq_ok_iff.mpr ⟨_, ?_, rfl⟩
      apply closingExpression_reads valueDerived
      simp only [List.length_append, List.length_cons]
      omega
  | branch testDerived trueDerived _ trueReads falseReads =>
      refine readsPhrase_statement (by simp) ?_
      intro limit line rest enough separate
      have falseSeparate := fun dangles => separate (Dangles.branch testDerived trueDerived dangles)
      simp only [List.length_append, List.length_cons] at enough
      simp only [List.cons_append, List.append_assoc]
      refine branch_eq_ok_iff.mpr ⟨_, _, _, _, _, condition_reads testDerived ?_,
        trueReads limit _ _ ?_, falseReads limit rest ?_ falseSeparate, rfl⟩
      all_goals
        simp only [List.length_append, List.length_cons]
        omega
  | loop testDerived _ bodyReads =>
      refine readsPhrase_statement (by simp) ?_
      intro limit line rest enough _
      simp only [List.length_append, List.length_cons] at enough
      simp only [List.cons_append, List.append_assoc]
      refine loop_eq_ok_iff.mpr ⟨_, _, _, condition_reads testDerived ?_,
        bodyReads limit _ rest ?_, rfl⟩
      all_goals
        simp only [List.length_append, List.length_cons]
        omega
  | print valueDerived =>
      refine readsPhrase_statement (by simp) ?_
      intro limit line rest enough _
      simp only [List.length_append, List.length_cons, List.length_nil] at enough
      simp only [List.cons_append, List.append_assoc, List.nil_append]
      refine print_eq_ok_iff.mpr ⟨_, ?_, rfl⟩
      apply closingExpression_reads valueDerived
      simp only [List.length_append, List.length_cons]
      omega
  | nil =>
      constructor
      · intro inner limit opened closed rest _ enough
        cases limit with
        | zero => simp at enough
        | succ limit => simp [blockRest]
      · intro inner limit rest _ enough _
        refine ⟨limit, enough, ?_⟩
        rw [List.nil_append]
        cases statementsWith (statementWithin inner) limit rest with
        | error error => rfl
        | ok nodes => rfl
  | cons firstDerived othersDerived firstReads othersRead =>
      exact readsPhrase_cons firstDerived othersDerived firstReads othersRead
  | block _ nodesRead =>
      intro limit line rest enough
      simp only [List.length_append, List.length_cons, List.length_nil] at enough
      simp only [List.cons_append, List.append_assoc, List.nil_append]
      refine blockOf_eq_ok_iff.mpr ⟨_, _, rfl, nodesRead.1 limit limit _ _ rest ?_ ?_⟩
      all_goals
        simp only [List.length_append, List.length_cons]
        omega
  | withoutElse =>
      intro limit rest _ separate
      exact alternative_without (separate Dangles.withoutElse)
  | elseBlock blockDerived blockReads =>
      intro limit rest enough _
      have noIf := blockDerived.block_noIf rest
      simp only [List.cons_append, List.length_cons] at enough
      rw [List.cons_append, alternative_block noIf]
      exact blockReads limit _ rest (by omega)
  | @elseIf _ _ _ _ _ _ elseLine branchDerived branchReads =>
      intro limit rest enough separate
      simp only [List.cons_append, List.length_cons] at enough
      have found := branchReads limit elseLine rest (by omega)
        (fun dangles => separate (Dangles.elseIf dangles))
      cases branchDerived with
      | branch _ _ _ =>
          simp only [List.cons_append, List.append_assoc] at found ⊢
          rw [alternative_chained, found]
          rfl

theorem statements_append_separate {program : List Statement} {depth : Nat}
    {front rest : List Located} (derivation : Program depth front program)
    (separate : Separate (.statements program) front rest) :
    statements (front ++ rest) = (statements rest).map (program ++ ·) := by
  have reads := (readsPhrase_of_derives derivation).2 (front ++ rest).length
    (front ++ rest).length rest (Nat.le_refl _) (Nat.le_refl _) separate
  obtain ⟨remaining, covers, found⟩ := reads
  rw [statements, found, statementsWith_eq_statements (by simp) covers]

theorem statements_append {program : List Statement} {depth : Nat} {front rest : List Located}
    (derivation : Program depth front program) (noElse : ¬ Begins (.keyword .elseWord) rest) :
    statements (front ++ rest) = (statements rest).map (program ++ ·) :=
  statements_append_separate derivation fun _ => noElse

theorem statements_of_derives {program : List Statement} {depth : Nat} {tokens : List Located}
    (derivation : Program depth tokens program) : statements tokens = .ok program := by
  have found := statements_append derivation not_begins_nil
  rw [List.append_nil] at found
  rw [found]
  simp [statements, statementsWith, Except.map]

end WhileLang.Parse
