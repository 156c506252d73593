import WhileLang.Proofs.Parse.Completeness

/-!
How a tree is written as tokens, with as few parentheses as its ladder of operators allows, and that
the parser undoes it.
-/

namespace WhileLang.Printing

open Grammar

/-- A token to be written. Where a node has to find its line again, the token carries that line;
elsewhere the line is free. -/
structure Written where
  token : Token
  line? : Option Nat

/-- Puts written tokens on lines; `lines` chooses the line of each token, by its place, that is
free to stand anywhere. -/
def placed (lines : Nat → Nat) (written : List Written) : List Located :=
  written.mapIdx fun place next => ⟨next.token, next.line?.getD (lines place)⟩

def top? : Expression → Option Operator
  | .binary op _ _ _ => some op
  | _ => none

/-- The operators by how tightly they bind, the tightest first. -/
def ladder : List (List Operator) :=
  [[.multiply, .divide], [.add, .subtract], [.greater, .less], [.strictEqual], [.and], [.or]]

def level (op : Operator) : Nat := ladder.findIdx (·.contains op) + 1

/-- A left operand is enclosed if its top operator binds looser. -/
def enclosesLeft (op : Operator) (left : Expression) : Bool :=
  (top? left).any fun top => decide (level op < level top)

/-- A right operand is enclosed if its top operator does not bind strictly tighter. -/
def enclosesRight (op : Operator) (right : Expression) : Bool :=
  (top? right).any fun top => !decide (level top < level op)

def enclosed (needed : Bool) (inner : List Written) : List Written :=
  if needed then ⟨.openParen, none⟩ :: inner ++ [⟨.closeParen, none⟩] else inner

def braced (inner : List Written) : List Written :=
  ⟨.openBrace, none⟩ :: inner ++ [⟨.closeBrace, none⟩]

def expression : Expression → List Written
  | .literal (.number value) line => [⟨.number value, some line⟩]
  | .literal (.boolean value) line => [⟨.boolean value, some line⟩]
  | .reference name line => [⟨.identifier name, some line⟩]
  | .binary op left right line =>
      enclosed (enclosesLeft op left) (expression left) ++
        ⟨.operator op, some line⟩ :: enclosed (enclosesRight op right) (expression right)

mutual

def statement : Statement → List Written
  | .declare name value line =>
      ⟨.keyword .letWord, some line⟩ :: ⟨.identifier name, none⟩ :: ⟨.equals, none⟩ ::
        expression value ++ [⟨.semicolon, none⟩]
  | .assign name value line =>
      ⟨.identifier name, some line⟩ :: ⟨.equals, none⟩ :: expression value ++ [⟨.semicolon, none⟩]
  | .branch condition whenTrue whenFalse line =>
      ⟨.keyword .ifWord, some line⟩ :: ⟨.openParen, none⟩ ::
        expression condition ++ ⟨.closeParen, none⟩ :: braced (statements whenTrue) ++
          if whenFalse.isEmpty then []
          else ⟨.keyword .elseWord, none⟩ :: braced (statements whenFalse)
  | .loop condition body line =>
      ⟨.keyword .whileWord, some line⟩ :: ⟨.openParen, none⟩ ::
        expression condition ++ ⟨.closeParen, none⟩ :: braced (statements body)
  | .print value line =>
      ⟨.keyword .printWord, some line⟩ :: expression value ++ [⟨.semicolon, none⟩]

def statements : List Statement → List Written
  | [] => []
  | first :: others => statement first ++ statements others

end

def topLevel (node : Expression) : Nat := (top? node).elim 0 level

@[simp] theorem placed_nil (lines : Nat → Nat) : placed lines [] = [] := rfl

@[simp] theorem placed_cons (lines : Nat → Nat) (next : Written) (rest : List Written) :
    placed lines (next :: rest) =
      ⟨next.token, next.line?.getD (lines 0)⟩ :: placed (fun place => lines (place + 1)) rest := by
  simp [placed, List.mapIdx_cons]

@[simp] theorem placed_append (lines : Nat → Nat) (front back : List Written) :
    placed lines (front ++ back) =
      placed lines front ++ placed (fun place => lines (place + front.length)) back := by
  simp [placed, List.mapIdx_append]

theorem level_le (op : Operator) : level op ≤ 6 := by
  cases op <;> decide

theorem mem_joining_level (op : Operator) : op ∈ joining (level op) := by
  cases op <;> decide

theorem topLevel_le (node : Expression) : topLevel node ≤ 6 := by
  cases node with
  | binary op _ _ _ => exact level_le op
  | _ => simp [topLevel, top?]

theorem topLevel_le_of_not_enclosesLeft {op : Operator} {left : Expression}
    (bare : enclosesLeft op left = false) : topLevel left ≤ level op := by
  cases left with
  | binary top _ _ _ => simpa [enclosesLeft, top?, topLevel] using bare
  | _ => simp [topLevel, top?]

theorem topLevel_lt_of_not_enclosesRight {op : Operator} {right : Expression}
    (bare : enclosesRight op right = false) : topLevel right < level op := by
  cases right with
  | binary top _ _ _ => simpa [enclosesRight, top?, topLevel] using bare
  | _ => exact Nat.succ_pos _

def WritesRanked (node : Expression) : Prop :=
  ∃ depth, ∀ lines, Ranked (topLevel node) depth (placed lines (expression node)) node

theorem WritesRanked.enclosed {node : Expression} (writes : WritesRanked node) {needed : Bool}
    {rank : Nat} (fits : needed = false → topLevel node ≤ rank) :
    ∃ depth, ∀ lines,
      Ranked rank depth (placed lines (enclosed needed (expression node))) node := by
  obtain ⟨depth, derivation⟩ := writes
  cases needed with
  | false => exact ⟨depth, fun lines => (derivation lines).lift (fits rfl)⟩
  | true =>
      refine ⟨depth + 1, fun lines => Ranked.lift ?_ (Nat.zero_le rank)⟩
      simp only [Printing.enclosed, if_true, placed_append, placed_cons, placed_nil]
      exact Ranked.group ((derivation _).lift (topLevel_le node))

theorem writesRanked (node : Expression) : WritesRanked node := by
  induction node with
  | literal value line =>
      cases value with
      | number value => exact ⟨0, fun lines => Ranked.number⟩
      | boolean value => exact ⟨0, fun lines => Ranked.boolean⟩
  | reference name line => exact ⟨0, fun lines => Ranked.reference⟩
  | binary op left right line leftWrites rightWrites =>
      obtain ⟨rank, isRank⟩ : ∃ rank, level op = rank + 1 := ⟨_, rfl⟩
      have leftFits : enclosesLeft op left = false → topLevel left ≤ rank + 1 := by
        intro bare
        have notLooser := topLevel_le_of_not_enclosesLeft bare
        omega
      have rightFits : enclosesRight op right = false → topLevel right ≤ rank := by
        intro bare
        have tighter := topLevel_lt_of_not_enclosesRight bare
        omega
      obtain ⟨leftDepth, leftDerived⟩ := leftWrites.enclosed leftFits
      obtain ⟨rightDepth, rightDerived⟩ := rightWrites.enclosed rightFits
      have member : op ∈ joining (rank + 1) := isRank ▸ mem_joining_level op
      have same : topLevel (.binary op left right line) = rank + 1 := isRank
      refine ⟨max leftDepth rightDepth, fun lines => ?_⟩
      simp only [expression, placed_append, placed_cons, same]
      exact Ranked.join (leftDerived _) member (rightDerived _)

theorem ranked_expression (node : Expression) :
    ∃ depth, ∀ lines, Ranked 6 depth (placed lines (expression node)) node := by
  obtain ⟨depth, derivation⟩ := writesRanked node
  exact ⟨depth, fun lines => (derivation lines).lift (topLevel_le node)⟩

def WritesPhrase (phrase : Phrase) (written : List Written) : Prop :=
  ∃ depth, ∀ lines, Derives phrase depth (placed lines written)

theorem WritesPhrase.braced {nodes : List Statement} {written : List Written}
    (writes : WritesPhrase (.statements nodes) written) :
    WritesPhrase (.block nodes) (braced written) := by
  obtain ⟨depth, derivation⟩ := writes
  refine ⟨depth + 1, fun lines => ?_⟩
  simp only [Printing.braced, placed_append, placed_cons, placed_nil]
  exact Derives.block (derivation _)

theorem writesPhrase_branch {condition : Expression} {whenTrue whenFalse : List Statement}
    (line : Nat) (trueWrites : WritesPhrase (.statements whenTrue) (statements whenTrue))
    (falseWrites : WritesPhrase (.statements whenFalse) (statements whenFalse)) :
    WritesPhrase (.statement (.branch condition whenTrue whenFalse line))
      (statement (.branch condition whenTrue whenFalse line)) := by
  obtain ⟨testDepth, testDerived⟩ := ranked_expression condition
  obtain ⟨trueDepth, trueDerived⟩ := trueWrites.braced
  cases whenFalse with
  | nil =>
      refine ⟨max (testDepth + 1) (max trueDepth 0), fun lines => ?_⟩
      simp only [statement, placed_append, placed_cons, List.isEmpty_nil, if_true, placed_nil]
      exact Derives.branch (testDerived _) (trueDerived _) Derives.withoutElse
  | cons first others =>
      obtain ⟨falseDepth, falseDerived⟩ := falseWrites.braced
      refine ⟨max (testDepth + 1) (max trueDepth falseDepth), fun lines => ?_⟩
      simp only [statement, placed_append, placed_cons, List.isEmpty_cons, Bool.false_eq_true,
        if_false]
      exact Derives.branch (testDerived _) (trueDerived _) (Derives.elseBlock (falseDerived _))

-- Both theorems follow the recursion of the printer, through branches and bodies.
mutual

theorem writesPhrase_statement (node : Statement) :
    WritesPhrase (.statement node) (statement node) := by
  cases node with
  | declare name value line =>
      obtain ⟨depth, derivation⟩ := ranked_expression value
      refine ⟨depth, fun lines => ?_⟩
      simp only [statement, placed_append, placed_cons, placed_nil]
      exact Derives.declare (derivation _)
  | assign name value line =>
      obtain ⟨depth, derivation⟩ := ranked_expression value
      refine ⟨depth, fun lines => ?_⟩
      simp only [statement, placed_append, placed_cons, placed_nil]
      exact Derives.assign (derivation _)
  | branch condition whenTrue whenFalse line =>
      exact writesPhrase_branch line (writesPhrase_statements whenTrue)
        (writesPhrase_statements whenFalse)
  | loop condition body line =>
      obtain ⟨depth, derivation⟩ := ranked_expression condition
      obtain ⟨bodyDepth, bodyDerived⟩ := (writesPhrase_statements body).braced
      refine ⟨max (depth + 1) bodyDepth, fun lines => ?_⟩
      simp only [statement, placed_append, placed_cons]
      exact Derives.loop (derivation _) (bodyDerived _)
  | print value line =>
      obtain ⟨depth, derivation⟩ := ranked_expression value
      refine ⟨depth, fun lines => ?_⟩
      simp only [statement, placed_append, placed_cons, placed_nil]
      exact Derives.print (derivation _)

theorem writesPhrase_statements (nodes : List Statement) :
    WritesPhrase (.statements nodes) (statements nodes) := by
  cases nodes with
  | nil => exact ⟨0, fun lines => Derives.nil⟩
  | cons first others =>
      obtain ⟨depth, firstDerived⟩ := writesPhrase_statement first
      obtain ⟨othersDepth, othersDerived⟩ := writesPhrase_statements others
      refine ⟨max depth othersDepth, fun lines => ?_⟩
      rw [statements, placed_append]
      exact Derives.cons (firstDerived _) (othersDerived _)

end

/-- The parser reads every program back from its written tokens, and takes exactly those: what
follows them is parsed as if it stood alone, unless it is an `else`. -/
theorem statements_placed (program : List Statement) (lines : Nat → Nat) :
    Parse.statements (placed lines (statements program)) = .ok program ∧
      ∀ rest, ¬ Parse.Begins (.keyword .elseWord) rest →
        Parse.statements (placed lines (statements program) ++ rest) =
          (Parse.statements rest).map (program ++ ·) := by
  obtain ⟨depth, derivation⟩ := writesPhrase_statements program
  constructor
  · exact Parse.statements_of_derives (derivation lines)
  · intro rest noElse
    exact Parse.statements_append (derivation lines) noElse

theorem statements_placed_difference :
    ¬ Parse.Begins (.keyword .elseWord)
        [⟨.keyword .printWord, 7⟩, ⟨.identifier "d", 7⟩, ⟨.semicolon, 7⟩] ∧
      Parse.statements (placed id (statements [.print (.binary .subtract (.reference "a" 1)
          (.binary .subtract (.reference "b" 2) (.reference "c" 3) 2) 1) 1]) ++
        [⟨.keyword .printWord, 7⟩, ⟨.identifier "d", 7⟩, ⟨.semicolon, 7⟩]) =
      .ok [.print (.binary .subtract (.reference "a" 1)
          (.binary .subtract (.reference "b" 2) (.reference "c" 3) 2) 1) 1,
        .print (.reference "d" 7) 7] := by
  have noElse : ¬ Parse.Begins (.keyword .elseWord)
      [⟨.keyword .printWord, 7⟩, ⟨.identifier "d", 7⟩, ⟨.semicolon, 7⟩] := by simp
  refine ⟨noElse, ?_⟩
  rw [(statements_placed _ id).2 _ noElse]
  rfl

end WhileLang.Printing
