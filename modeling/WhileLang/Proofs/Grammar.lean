import WhileLang.Token
import WhileLang.Tree

/-!
The grammar of programs, as relations between a list of tokens, the node that the tokens stand for,
and how deep parentheses and braces nest in the derivation.

Ranks are the nonterminals of expressions: rank zero is an operand, and each rank above it joins
expressions of the rank below to the left. Nodes take their lines from tokens: a literal or name
from its own, a binary node from its operator, a statement from its first.
-/

namespace WhileLang.Grammar

def joining : Nat → List Operator
  | 1 => [.multiply, .divide]
  | 2 => [.add, .subtract]
  | 3 => [.greater, .less]
  | 4 => [.strictEqual]
  | 5 => [.and]
  | 6 => [.or]
  | _ => []

/-- `Ranked rank depth tokens node`: the tokens are an expression of the given rank. -/
inductive Ranked : Nat → Nat → List Located → Expression → Prop
  | number {value line} : Ranked 0 0 [⟨.number value, line⟩] (.literal (.number value) line)
  | boolean {value line} : Ranked 0 0 [⟨.boolean value, line⟩] (.literal (.boolean value) line)
  | reference {name line} : Ranked 0 0 [⟨.identifier name, line⟩] (.reference name line)
  | group {depth tokens node opened closed} : Ranked 6 depth tokens node →
      Ranked 0 (depth + 1) (⟨.openParen, opened⟩ :: tokens ++ [⟨.closeParen, closed⟩]) node
  | operand {rank depth tokens node} : Ranked rank depth tokens node →
      Ranked (rank + 1) depth tokens node
  | join {rank op leftDepth rightDepth left right leftNode rightNode line} :
      Ranked (rank + 1) leftDepth left leftNode → op ∈ joining (rank + 1) →
      Ranked rank rightDepth right rightNode →
      Ranked (rank + 1) (max leftDepth rightDepth) (left ++ ⟨.operator op, line⟩ :: right)
        (.binary op leftNode rightNode line)

theorem Ranked.lift {rank above depth : Nat} {tokens : List Located} {node : Expression}
    (derivation : Ranked rank depth tokens node) (below : rank ≤ above) :
    Ranked above depth tokens node := by
  induction below with
  | refl => exact derivation
  | step _ ih => exact ih.operand

inductive Phrase where
  | statement (node : Statement)
  | statements (nodes : List Statement)
  | block (nodes : List Statement)
  | alternative (nodes : List Statement)

inductive Derives : Phrase → Nat → List Located → Prop
  | declare {name value depth tokens line nameLine signLine endLine} :
      Ranked 6 depth tokens value →
      Derives (.statement (.declare name value line)) depth
        (⟨.keyword .letWord, line⟩ :: ⟨.identifier name, nameLine⟩ :: ⟨.equals, signLine⟩ ::
          tokens ++ [⟨.semicolon, endLine⟩])
  | assign {name value depth tokens line signLine endLine} :
      Ranked 6 depth tokens value →
      Derives (.statement (.assign name value line)) depth
        (⟨.identifier name, line⟩ :: ⟨.equals, signLine⟩ :: tokens ++ [⟨.semicolon, endLine⟩])
  | branch {condition whenTrue whenFalse depth trueDepth falseDepth tokens trueTokens falseTokens
      line opened closed} :
      Ranked 6 depth tokens condition →
      Derives (.block whenTrue) trueDepth trueTokens →
      Derives (.alternative whenFalse) falseDepth falseTokens →
      Derives (.statement (.branch condition whenTrue whenFalse line))
        (max (depth + 1) (max trueDepth falseDepth))
        (⟨.keyword .ifWord, line⟩ :: ⟨.openParen, opened⟩ ::
          tokens ++ ⟨.closeParen, closed⟩ :: trueTokens ++ falseTokens)
  | loop {condition body depth bodyDepth tokens bodyTokens line opened closed} :
      Ranked 6 depth tokens condition →
      Derives (.block body) bodyDepth bodyTokens →
      Derives (.statement (.loop condition body line)) (max (depth + 1) bodyDepth)
        (⟨.keyword .whileWord, line⟩ :: ⟨.openParen, opened⟩ ::
          tokens ++ ⟨.closeParen, closed⟩ :: bodyTokens)
  | print {value depth tokens line endLine} :
      Ranked 6 depth tokens value →
      Derives (.statement (.print value line)) depth
        (⟨.keyword .printWord, line⟩ :: tokens ++ [⟨.semicolon, endLine⟩])
  | nil : Derives (.statements []) 0 []
  | cons {first others depth othersDepth front back} :
      Derives (.statement first) depth front →
      Derives (.statements others) othersDepth back →
      Derives (.statements (first :: others)) (max depth othersDepth) (front ++ back)
  | block {nodes depth tokens opened closed} :
      Derives (.statements nodes) depth tokens →
      Derives (.block nodes) (depth + 1)
        (⟨.openBrace, opened⟩ :: tokens ++ [⟨.closeBrace, closed⟩])
  | withoutElse : Derives (.alternative []) 0 []
  | elseBlock {nodes depth tokens line} :
      Derives (.block nodes) depth tokens →
      Derives (.alternative nodes) depth (⟨.keyword .elseWord, line⟩ :: tokens)
  | elseIf {condition whenTrue whenFalse depth tokens line elseLine} :
      Derives (.statement (.branch condition whenTrue whenFalse line)) depth tokens →
      Derives (.alternative [.branch condition whenTrue whenFalse line]) depth
        (⟨.keyword .elseWord, elseLine⟩ :: tokens)

def Program (depth : Nat) (tokens : List Located) (program : List Statement) : Prop :=
  Derives (.statements program) depth tokens

theorem Program.single {statement : Statement} {depth : Nat} {tokens : List Located}
    (derivation : Derives (.statement statement) depth tokens) :
    Program depth tokens [statement] := by
  have whole := Derives.cons derivation .nil
  rw [List.append_nil, Nat.max_zero] at whole
  exact whole

/-- `Dangles phrase tokens`: the tokens are the phrase and end in a branch, or a chain of branches,
that has no `else` of its own yet. -/
inductive Dangles : Phrase → List Located → Prop
  | branch {condition whenTrue whenFalse depth trueDepth tokens trueTokens falseTokens line opened
      closed} :
      Ranked 6 depth tokens condition →
      Derives (.block whenTrue) trueDepth trueTokens →
      Dangles (.alternative whenFalse) falseTokens →
      Dangles (.statement (.branch condition whenTrue whenFalse line))
        (⟨.keyword .ifWord, line⟩ :: ⟨.openParen, opened⟩ ::
          tokens ++ ⟨.closeParen, closed⟩ :: trueTokens ++ falseTokens)
  | withoutElse : Dangles (.alternative []) []
  | elseIf {condition whenTrue whenFalse tokens line elseLine} :
      Dangles (.statement (.branch condition whenTrue whenFalse line)) tokens →
      Dangles (.alternative [.branch condition whenTrue whenFalse line])
        (⟨.keyword .elseWord, elseLine⟩ :: tokens)
  | last {node tokens} : Dangles (.statement node) tokens → Dangles (.statements [node]) tokens
  | later {first others depth front back} :
      Derives (.statement first) depth front → Dangles (.statements others) back →
      Dangles (.statements (first :: others)) (front ++ back)

end WhileLang.Grammar
