import WhileLang.Proofs.Grammar

/-!
Ways down from the root of a tree, and how the nesting of brackets limits them. A step into a right
operand goes to a lower rank until a parenthesis begins again at the top, and a step into a block
goes behind a brace. Steps into left operands and into the `else` part of a branch pass no bracket.
-/

namespace WhileLang

inductive Step where
  | value
  | left
  | right
  | body
  | otherwise
deriving DecidableEq

/-- Whether a step may be taken again and again without another bracket. -/
def Step.free : Step → Bool
  | left | otherwise => true
  | _ => false

namespace Expression

def height : Expression → Nat
  | literal _ _ => 1
  | reference _ _ => 1
  | binary _ left right _ => max left.height right.height + 1

inductive Path : Expression → List Step → Prop
  | here {node} : Path node []
  | left {op left right line steps} : Path left steps →
      Path (binary op left right line) (.left :: steps)
  | right {op left right line steps} : Path right steps →
      Path (binary op left right line) (.right :: steps)

theorem height_pos (node : Expression) : 0 < node.height := by
  cases node <;> simp [height]

theorem Path.length_eq {node : Expression} {steps : List Step} (path : node.Path steps) :
    steps.length = steps.count .right + steps.countP Step.free := by
  induction path with
  | here => rfl
  | left _ ih | right _ ih =>
      simp only [List.length_cons, List.count_cons, List.countP_cons, Step.free, beq_iff_eq,
        reduceCtorEq, Bool.false_eq_true, if_true, if_false]
      omega

theorem Path.length_lt_height {node : Expression} {steps : List Step} (path : node.Path steps) :
    steps.length < node.height := by
  induction path with
  | here => exact height_pos _
  | left _ ih | right _ ih =>
      rw [height, List.length_cons]
      omega

theorem Path.count_body {node : Expression} {steps : List Step} (path : node.Path steps) :
    steps.count .body = 0 := by
  induction path with
  | here => rfl
  | left _ ih | right _ ih => simp [ih]

theorem exists_path (node : Expression) :
    ∃ steps, node.Path steps ∧ steps.length + 1 = node.height := by
  induction node with
  | literal _ _ | reference _ _ => exact ⟨[], .here, rfl⟩
  | binary _ left right _ leftIh rightIh =>
      obtain ⟨leftSteps, leftPath, leftLength⟩ := leftIh
      obtain ⟨rightSteps, rightPath, rightLength⟩ := rightIh
      rw [height]
      by_cases leftTaller : right.height ≤ left.height
      · refine ⟨.left :: leftSteps, .left leftPath, ?_⟩
        rw [List.length_cons]
        omega
      · refine ⟨.right :: rightSteps, .right rightPath, ?_⟩
        rw [List.length_cons]
        omega

end Expression

namespace Statement

mutual

def height : Statement → Nat
  | declare _ value _ => value.height + 1
  | assign _ value _ => value.height + 1
  | branch condition whenTrue whenFalse _ =>
      max condition.height (max (heightAll whenTrue) (heightAll whenFalse)) + 1
  | loop condition body _ => max condition.height (heightAll body) + 1
  | print value _ => value.height + 1

def heightAll : List Statement → Nat
  | [] => 0
  | first :: rest => max first.height (heightAll rest)

end

def expression : Statement → Expression
  | declare _ value _ => value
  | assign _ value _ => value
  | branch condition _ _ _ => condition
  | loop condition _ _ => condition
  | print value _ => value

def body : Statement → List Statement
  | branch _ whenTrue _ _ => whenTrue
  | loop _ body _ => body
  | _ => []

def otherwise : Statement → List Statement
  | branch _ _ whenFalse _ => whenFalse
  | _ => []

inductive Path : Statement → List Step → Prop
  | here {statement} : Path statement []
  | value {statement steps} : statement.expression.Path steps → Path statement (.value :: steps)
  | body {statement inner steps} : inner ∈ statement.body → Path inner steps →
      Path statement (.body :: steps)
  | otherwise {statement inner steps} : inner ∈ statement.otherwise → Path inner steps →
      Path statement (.otherwise :: steps)

theorem height_eq (statement : Statement) :
    statement.height = max statement.expression.height
      (max (heightAll statement.body) (heightAll statement.otherwise)) + 1 := by
  cases statement <;> simp [height, heightAll, expression, body, otherwise]

theorem height_le_heightAll {statement : Statement} {statements : List Statement}
    (isMember : statement ∈ statements) : statement.height ≤ heightAll statements := by
  induction statements with
  | nil => cases isMember
  | cons first rest ih =>
      rw [heightAll]
      rcases List.mem_cons.mp isMember with rfl | isMember
      · omega
      · have atMost := ih isMember
        omega

theorem Path.length_lt_height {statement : Statement} {steps : List Step}
    (path : statement.Path steps) : steps.length < statement.height := by
  induction path with
  | here =>
      rw [height_eq]
      exact Nat.succ_pos _
  | value path =>
      have longer := path.length_lt_height
      rw [height_eq, List.length_cons]
      omega
  | body isMember _ ih | otherwise isMember _ ih =>
      have atMost := height_le_heightAll isMember
      rw [height_eq, List.length_cons]
      omega

theorem exists_mem_height {statements : List Statement} (some : 0 < heightAll statements) :
    ∃ statement ∈ statements, statement.height = heightAll statements := by
  induction statements with
  | nil => simp [heightAll] at some
  | cons first rest ih =>
      rw [heightAll] at some ⊢
      by_cases taller : heightAll rest ≤ first.height
      · exact ⟨first, List.mem_cons_self, by omega⟩
      · obtain ⟨statement, isMember, tallest⟩ := ih (by omega)
        exact ⟨statement, List.mem_cons_of_mem first isMember, by omega⟩

theorem exists_path (statement : Statement) :
    ∃ steps, statement.Path steps ∧ steps.length + 1 = statement.height := by
  induction isHeight : statement.height using Nat.strongRecOn generalizing statement with
  | ind height ih =>
      rw [height_eq] at isHeight
      have valueTall := statement.expression.height_pos
      by_cases bodyTaller : statement.expression.height < heightAll statement.body ∧
          heightAll statement.otherwise ≤ heightAll statement.body
      · have some : 0 < heightAll statement.body := by omega
        obtain ⟨inner, isMember, tallest⟩ := exists_mem_height some
        obtain ⟨steps, path, long⟩ := ih inner.height (by omega) inner rfl
        refine ⟨.body :: steps, .body isMember path, ?_⟩
        rw [List.length_cons]
        omega
      · by_cases otherwiseTaller : statement.expression.height < heightAll statement.otherwise
        · have some : 0 < heightAll statement.otherwise := by omega
          obtain ⟨inner, isMember, tallest⟩ := exists_mem_height some
          obtain ⟨steps, path, long⟩ := ih inner.height (by omega) inner rfl
          refine ⟨.otherwise :: steps, .otherwise isMember path, ?_⟩
          rw [List.length_cons]
          omega
        · obtain ⟨steps, path, long⟩ := statement.expression.exists_path
          refine ⟨.value :: steps, .value path, ?_⟩
          rw [List.length_cons]
          omega

theorem Path.length_le {statement : Statement} {steps : List Step} (path : statement.Path steps) :
    steps.length ≤ steps.count .body + steps.count .right + 1 + steps.countP Step.free := by
  induction path with
  | here => simp
  | value path =>
      have length := path.length_eq
      simp only [List.length_cons, List.count_cons, List.countP_cons, Step.free, beq_iff_eq,
        reduceCtorEq, Bool.false_eq_true, if_false]
      omega
  | body _ _ ih | otherwise _ _ ih =>
      simp only [List.length_cons, List.count_cons, List.countP_cons, Step.free, beq_iff_eq,
        reduceCtorEq, Bool.false_eq_true, if_true, if_false]
      omega

/-- What a way down may have of each kind of step when brackets nest `depth` deep. Blocks and
parentheses share the depth. -/
def Fits (depth : Nat) (statement : Statement) : Prop :=
  ∀ steps, statement.Path steps → steps.count .body ≤ depth ∧
    6 * steps.count .body + steps.count .right ≤ 6 * (depth + 1)

theorem Fits.mono {depth deeper : Nat} {statement : Statement} (fits : statement.Fits depth)
    (atMost : depth ≤ deeper) : statement.Fits deeper := by
  intro steps path
  have counts := fits steps path
  omega

theorem fits_of_parts {depth : Nat} {statement : Statement}
    (valueFits : ∀ steps, statement.expression.Path steps →
      steps.count .right ≤ 6 * (depth + 1))
    (bodyFits : ∀ inner ∈ statement.body, ∃ inside, inner.Fits inside ∧ inside < depth)
    (otherwiseFits : ∀ inner ∈ statement.otherwise, inner.Fits depth) :
    statement.Fits depth := by
  intro steps path
  cases path with
  | here => simp
  | value path =>
      have counts := valueFits _ path
      simp only [ne_eq, reduceCtorEq, not_false_eq_true, List.count_cons_of_ne, path.count_body]
      omega
  | body isMember path =>
      obtain ⟨inside, fits, room⟩ := bodyFits _ isMember
      have counts := fits _ path
      simp only [List.count_cons_self, ne_eq, reduceCtorEq, not_false_eq_true,
        List.count_cons_of_ne]
      omega
  | otherwise isMember path =>
      have counts := otherwiseFits _ isMember _ path
      simpa using counts

end Statement

namespace Grammar

theorem Ranked.count_right_le {rank depth : Nat} {tokens : List Located} {node : Expression}
    (derivation : Ranked rank depth tokens node) {steps : List Step} (path : node.Path steps) :
    steps.count .right ≤ rank + 6 * depth := by
  induction derivation generalizing steps with
  | number | boolean | reference =>
      cases path
      simp
  | group _ ih =>
      have counts := ih path
      omega
  | operand _ ih =>
      have counts := ih path
      omega
  | join _ _ _ leftIh rightIh =>
      cases path with
      | here => simp
      | left path =>
          have counts := leftIh path
          simp only [ne_eq, reduceCtorEq, not_false_eq_true, List.count_cons_of_ne]
          omega
      | right path =>
          -- The right operand is of a lower rank, which pays for the step.
          have counts := rightIh path
          rw [List.count_cons_self]
          omega

/-- The statements of a phrase fit its depth; those of a block fit the depth inside its braces. -/
def Phrase.Fits (depth : Nat) : Phrase → Prop
  | .statement node => node.Fits depth
  | .statements nodes => ∀ node ∈ nodes, node.Fits depth
  | .block nodes => ∃ inside, depth = inside + 1 ∧ ∀ node ∈ nodes, node.Fits inside
  | .alternative nodes => ∀ node ∈ nodes, node.Fits depth

theorem Derives.fits {phrase : Phrase} {depth : Nat} {tokens : List Located}
    (derivation : Derives phrase depth tokens) : phrase.Fits depth := by
  induction derivation with
  | declare valueDerived | assign valueDerived | print valueDerived =>
      refine Statement.fits_of_parts ?_ (by simp [Statement.body])
        (by simp [Statement.otherwise])
      intro steps path
      have counts := valueDerived.count_right_le path
      omega
  | branch testDerived _ _ trueIh falseIh =>
      obtain ⟨inside, isDepth, trueFits⟩ := trueIh
      refine Statement.fits_of_parts ?_ ?_ ?_
      · intro steps path
        have counts := testDerived.count_right_le path
        omega
      · intro inner isMember
        exact ⟨inside, trueFits inner isMember, by omega⟩
      · intro inner isMember
        exact (falseIh inner isMember).mono (by omega)
  | loop testDerived _ bodyIh =>
      obtain ⟨inside, isDepth, bodyFits⟩ := bodyIh
      refine Statement.fits_of_parts ?_ ?_ (by simp [Statement.otherwise])
      · intro steps path
        have counts := testDerived.count_right_le path
        omega
      · intro inner isMember
        exact ⟨inside, bodyFits inner isMember, by omega⟩
  | nil | withoutElse => simp [Phrase.Fits]
  | cons _ _ firstIh othersIh =>
      intro node isMember
      rcases List.mem_cons.mp isMember with rfl | isMember
      · exact Statement.Fits.mono firstIh (by omega)
      · exact (othersIh node isMember).mono (by omega)
  | block _ ih => exact ⟨_, rfl, ih⟩
  | elseBlock _ ih =>
      obtain ⟨inside, rfl, fits⟩ := ih
      intro node isMember
      exact (fits node isMember).mono (by omega)
  | elseIf _ ih =>
      intro node isMember
      obtain rfl := List.mem_singleton.mp isMember
      exact ih

end Grammar

end WhileLang
