import WhileLang.Program
import WhileLang.Proofs.Acceptance
import WhileLang.Proofs.LineEnds
import WhileLang.Proofs.Occurrence

/-!
How high the trees of programs grow. The limit on nested brackets keeps every way down a tree short,
apart from its steps into left operands and `else` parts. A sum with many terms and a branch with
many alternatives open few brackets, and their trees have no greatest height.
-/

namespace WhileLang

open Grammar

theorem exists_tall_sum (bound : Nat) :
    ∃ source tokens value, tokenize source = .ok (⟨.keyword .printWord, 1⟩ :: tokens) ∧
      Ranked 2 0 tokens value ∧ bound < value.height := by
  induction bound with
  | zero =>
      have scanned : tokenize "print 1" = .ok [⟨.keyword .printWord, 1⟩, ⟨.number 1, 1⟩] := by
        decide +kernel
      exact ⟨_, _, _, scanned, .operand (.operand .number), by decide⟩
  | succ bound ih =>
      obtain ⟨source, tokens, value, scanned, derivation, tall⟩ := ih
      have apart : Apart false (⟨.keyword .printWord, 1⟩ :: tokens) :=
        ⟨by simp, derivation.apart⟩
      have term : tokenize "+ 1" = .ok [⟨.operator .add, 1⟩, ⟨.number 1, 1⟩] := by decide +kernel
      have longer := Lexicon.tokenize_append_line scanned apart "+ 1"
      rw [term] at longer
      refine ⟨_, _, _, longer, .join derivation (by decide) (.operand .number), ?_⟩
      rw [Expression.height]
      omega

theorem exists_tall_expression (bound : Nat) :
    ∃ source value, parseProgram source = .ok [.print value 1] ∧ bound < value.height := by
  obtain ⟨source, tokens, value, scanned, derivation, tall⟩ := exists_tall_sum bound
  have closing : tokenize ";" = .ok [⟨.semicolon, 1⟩] := by decide +kernel
  have whole := Lexicon.tokenize_append_line scanned ⟨by simp, derivation.apart⟩ ";"
  rw [closing] at whole
  have ranked : Ranked 6 0 tokens value := derivation.lift (by omega)
  exact ⟨_, value, parseProgram_of_derivation whole (.single (.print ranked)) (Nat.zero_le _),
    tall⟩

/-- A branch that no test enters, with one alternative of the same kind for each further line. -/
def chain (line : Nat) : List Nat → Statement
  | [] => .branch (.literal (.boolean false) line) [] [] line
  | next :: lines => .branch (.literal (.boolean false) line) [] [chain next lines] line

def linkTokens (line : Nat) : List Located :=
  [⟨.keyword .ifWord, line⟩, ⟨.openParen, line⟩, ⟨.boolean false, line⟩, ⟨.closeParen, line⟩,
    ⟨.openBrace, line⟩, ⟨.closeBrace, line⟩]

def chainTokens (line : Nat) : List Nat → List Located
  | [] => linkTokens line
  | next :: lines => linkTokens line ++ ⟨.keyword .elseWord, next⟩ :: chainTokens next lines

theorem chainTokens_append (line last : Nat) (lines : List Nat) :
    chainTokens line (lines ++ [last]) =
      chainTokens line lines ++ ⟨.keyword .elseWord, last⟩ :: linkTokens last := by
  induction lines generalizing line with
  | nil => rfl
  | cons next lines ih => simp [chainTokens, ih]

theorem length_lt_height_chain (line : Nat) (lines : List Nat) :
    lines.length < (chain line lines).height := by
  induction lines generalizing line with
  | nil => simp [chain, Statement.height]
  | cons next lines ih =>
      have higher := ih next
      simp only [chain, Statement.height, Statement.heightAll, List.length_cons]
      omega

theorem derives_link (line : Nat) {depth : Nat} {nodes : List Statement} {tokens : List Located}
    (derivation : Derives (.alternative nodes) depth tokens) (shallow : depth ≤ 1) :
    Derives (.statement (.branch (.literal (.boolean false) line) [] nodes line)) 1
      (linkTokens line ++ tokens) := by
  have test : Ranked 6 0 [⟨.boolean false, line⟩] (.literal (.boolean false) line) :=
    Ranked.boolean.lift (by omega)
  have block : Derives (.block []) 1 [⟨.openBrace, line⟩, ⟨.closeBrace, line⟩] := .block .nil
  have isDepth : 1 = max (0 + 1) (max 1 depth) := by omega
  rw [isDepth]
  exact .branch test block derivation

theorem derives_chain (line : Nat) (lines : List Nat) :
    Derives (.statement (chain line lines)) 1 (chainTokens line lines) := by
  induction lines generalizing line with
  | nil => exact derives_link line .withoutElse (by omega)
  | cons next lines ih =>
      have inner := ih next
      have alternative : Derives (.alternative [chain next lines]) 1
          (⟨.keyword .elseWord, next⟩ :: chainTokens next lines) := by
        cases lines <;> exact .elseIf inner
      exact derives_link line alternative (by omega)

theorem exists_chain_source (length : Nat) :
    ∃ source lines, lines.length = length ∧ tokenize source = .ok (chainTokens 1 lines) := by
  induction length with
  | zero =>
      have scanned : tokenize "if (false) \x7b\x7d" = .ok (chainTokens 1 []) := by decide +kernel
      exact ⟨_, [], rfl, scanned⟩
  | succ length ih =>
      obtain ⟨source, lines, isLength, scanned⟩ := ih
      have apart := (derives_chain 1 lines).apart
      have link : tokenize "else if (false) \x7b\x7d" =
          .ok (⟨.keyword .elseWord, 1⟩ :: linkTokens 1) := by decide +kernel
      have longer := Lexicon.tokenize_append_line scanned apart "else if (false) \x7b\x7d"
      rw [link] at longer
      have isTokens : tokenize (source ++ "\n" ++ "else if (false) \x7b\x7d") =
          .ok (chainTokens 1 (lines ++ [1 + (1 + source.toList.count '\n')])) := by
        rw [chainTokens_append]
        exact longer
      exact ⟨_, _, by simp [isLength], isTokens⟩

theorem execute_chain {fuel : Nat} {lines : List Nat} (short : fuel ≤ lines.length) (line : Nat)
    (machine : Machine) : execute fuel (chain line lines) machine = .unfinished := by
  induction lines generalizing fuel line machine with
  | nil =>
      obtain rfl : fuel = 0 := Nat.le_zero.mp short
      rfl
  | cons next lines ih =>
      cases fuel with
      | zero => rfl
      | succ fuel =>
          have inner := ih (Nat.le_of_succ_le_succ short) next
          have entered : execute (fuel + 1) (chain line (next :: lines)) machine =
              executeAll (execute fuel) [chain next lines]
                (machine.record (.statementStarted line)) := rfl
          rw [entered, executeAll, inner]

/-- On a way down a statement, at any depth of a program, blocks and right operands share the limit
on nested brackets: each block entered leaves six right operands fewer. -/
theorem parseProgram_ways_down {source : String} {program : List Statement}
    (accepted : parseProgram source = .ok program) {statement : Statement}
    (occurs : statement.Occurs program) {steps : List Step} (path : statement.Path steps) :
    steps.count .body ≤ 256 ∧ steps.count .right ≤ 6 * (257 - steps.count .body) := by
  obtain ⟨tokens, depth, _, derivation, shallow⟩ := exists_derivation accepted
  obtain ⟨outer, isMember, way, leads⟩ := occurs.exists_way
  have fits := Derives.fits derivation outer isMember _ (leads steps path)
  have isLimit : Nesting.limit = 256 := rfl
  simp only [List.count_append] at fits
  omega

theorem parseProgram_ways_down_product :
    ∃ statement, parseProgram "while (a) \x7b print 1 + 2 * x; \x7d" = .ok [statement] ∧
      statement.Occurs [statement] ∧ statement.Path [.body, .value, .right, .right] ∧
      [Step.body, .value, .right, .right].count .right ≤
        6 * (257 - [Step.body, .value, .right, .right].count .body) := by
  let value : Expression := .binary .add (.literal (.number 1) 1)
    (.binary .multiply (.literal (.number 2) 1) (.reference "x" 1) 1) 1
  have scanned : tokenize "while (a) \x7b print 1 + 2 * x; \x7d" =
      .ok [⟨.keyword .whileWord, 1⟩, ⟨.openParen, 1⟩, ⟨.identifier "a", 1⟩, ⟨.closeParen, 1⟩,
        ⟨.openBrace, 1⟩, ⟨.keyword .printWord, 1⟩, ⟨.number 1, 1⟩, ⟨.operator .add, 1⟩,
        ⟨.number 2, 1⟩, ⟨.operator .multiply, 1⟩, ⟨.identifier "x", 1⟩, ⟨.semicolon, 1⟩,
        ⟨.closeBrace, 1⟩] := by decide +kernel
  have accepted : parseProgram "while (a) \x7b print 1 + 2 * x; \x7d" =
      .ok [.loop (.reference "a" 1) [.print value 1] 1] :=
    parseProgram_steps.mpr ⟨_, scanned, rfl, rfl⟩
  have occurs : (Statement.loop (.reference "a" 1) [.print value 1] 1).Occurs
      [.loop (.reference "a" 1) [.print value 1] 1] := .here List.mem_cons_self
  have path : (Statement.loop (.reference "a" 1) [.print value 1] 1).Path
      [.body, .value, .right, .right] :=
    .body List.mem_cons_self (.value (.right (.right .here)))
  exact ⟨_, accepted, occurs, path, (parseProgram_ways_down accepted occurs path).2⟩

/-- The height of a statement of a program is the number of steps into left operands and `else`
parts on some way down, up to a constant that the limit on brackets gives. So it has a bound where
these steps have one. -/
theorem parseProgram_height {source : String} {program : List Statement}
    (accepted : parseProgram source = .ok program) {statement : Statement}
    (isMember : statement ∈ program) :
    (∀ steps, statement.Path steps → steps.countP Step.free < statement.height) ∧
      ∃ steps, statement.Path steps ∧
        statement.height ≤ 6 * (Nesting.limit + 1) + 2 + steps.countP Step.free := by
  constructor
  · intro steps path
    exact Nat.lt_of_le_of_lt List.countP_le_length path.length_lt_height
  · obtain ⟨tokens, depth, _, derivation, shallow⟩ := exists_derivation accepted
    obtain ⟨steps, path, isHeight⟩ := statement.exists_path
    have fits := Derives.fits derivation statement isMember steps path
    have length := path.length_le
    exact ⟨steps, path, by omega⟩

theorem parseProgram_height_sum :
    ∃ statement, parseProgram "print 1 + 2 + x;" = .ok [statement] ∧ statement.height = 4 ∧
      (∀ steps, statement.Path steps → steps.countP Step.free < 4) ∧
        ∃ steps, statement.Path steps ∧ 4 ≤ 1544 + steps.countP Step.free := by
  have scanned : tokenize "print 1 + 2 + x;" =
      .ok [⟨.keyword .printWord, 1⟩, ⟨.number 1, 1⟩, ⟨.operator .add, 1⟩, ⟨.number 2, 1⟩,
        ⟨.operator .add, 1⟩, ⟨.identifier "x", 1⟩, ⟨.semicolon, 1⟩] := by decide +kernel
  have accepted : parseProgram "print 1 + 2 + x;" =
      .ok [.print (.binary .add (.binary .add (.literal (.number 1) 1) (.literal (.number 2) 1) 1)
        (.reference "x" 1) 1) 1] :=
    parseProgram_steps.mpr ⟨_, scanned, rfl, rfl⟩
  exact ⟨_, accepted, rfl, parseProgram_height accepted List.mem_cons_self⟩

/-- No bound holds for the expressions of all programs, and none for their branches: there are
chains of any height, and running one takes as many steps into the chain. -/
theorem parseProgram_height_unbounded :
    (¬ ∃ bound, ∀ source program, parseProgram source = .ok program → ∀ statement ∈ program,
      statement.expression.height ≤ bound) ∧
    ∀ bound, ∃ source lines, parseProgram source = .ok [chain 1 lines] ∧
      bound < (chain 1 lines).height ∧
        ∀ machine, execute bound (chain 1 lines) machine = .unfinished := by
  constructor
  · rintro ⟨bound, always⟩
    obtain ⟨source, value, accepted, tall⟩ := exists_tall_expression bound
    have atMost : value.height ≤ bound := always source _ accepted _ List.mem_cons_self
    omega
  · intro bound
    obtain ⟨source, lines, isLength, scanned⟩ := exists_chain_source bound
    have tall := length_lt_height_chain 1 lines
    refine ⟨source, lines, ?_, by omega, execute_chain (by omega) 1⟩
    exact parseProgram_of_derivation scanned (.single (derives_chain 1 lines)) (by decide)

end WhileLang
