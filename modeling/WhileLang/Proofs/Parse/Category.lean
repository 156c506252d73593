import WhileLang.Program
import WhileLang.Proofs.TokenLines

/-!
Whatever keeps a source text from being run is of the class of parse errors. The scanner, the count
of brackets and every parser report no other fault.
-/

namespace WhileLang

def OnlyRejects {α : Type} (result : Except Error α) : Prop :=
  ∀ error, result = .error error → error.fault.category = .parse

section

variable {α β : Type}

theorem OnlyRejects.ok (value : α) : OnlyRejects (.ok value) := nofun

theorem OnlyRejects.of_category {error : Error} (isParse : error.fault.category = .parse) :
    OnlyRejects (.error error : Except Error α) := by
  rintro _ ⟨⟩
  exact isParse

theorem OnlyRejects.bind {first : Except Error α} {next : α → Except Error β}
    (firstRejects : OnlyRejects first) (nextRejects : ∀ value, OnlyRejects (next value)) :
    OnlyRejects (first >>= next) := by
  cases first with
  | error error => exact .of_category (firstRejects error rfl)
  | ok value => exact nextRejects value

theorem OnlyRejects.map {first : Except Error α} (firstRejects : OnlyRejects first)
    (change : α → β) : OnlyRejects (do return change (← first)) :=
  firstRejects.bind fun value => .ok (change value)

end

theorem tokenize_onlyRejects (source : String) : OnlyRejects (tokenize source) := by
  intro error failed
  obtain ⟨lexemes, stop, munches⟩ := Lexicon.exists_munches source.toList
  obtain ⟨tokens, stand⟩ := munches.exists_stand 1
  have scanned := Lexicon.scan_of_munches munches stand
  obtain ⟨c, rest, _, rfl⟩ := Lexicon.outcome_eq_error_iff.mp (scanned.symm.trans failed)
  rfl

theorem Nesting.checkFrom_onlyRejects (depth : Nat) (tokens : List Located) :
    OnlyRejects (checkFrom depth tokens) := by
  fun_induction checkFrom depth tokens with
  | case1 => exact .ok ()
  | case3 | case5 => exact .of_category rfl
  | case2 _ _ _ _ _ ih | case4 _ _ _ _ _ ih | case6 _ _ _ _ ih | case7 _ _ _ _ ih
  | case8 _ _ _ _ _ _ _ ih => exact ih

namespace Parse

theorem expect_onlyRejects (expected : Token) (line : Nat) (tokens : List Located) :
    OnlyRejects (expect expected line tokens) := by
  fun_cases expect expected line tokens with
  | case1 | case3 => exact .of_category rfl
  | case2 => exact .ok _

theorem name_onlyRejects (line : Nat) (tokens : List Located) : OnlyRejects (name line tokens) := by
  fun_cases name line tokens with
  | case1 | case3 | case4 => exact .of_category rfl
  | case2 => exact .ok _

theorem operand_onlyRejects {group : Parser Expression}
    (groupRejects : ∀ line tokens, OnlyRejects (group line tokens)) (line : Nat)
    (tokens : List Located) : OnlyRejects (operand group line tokens) := by
  fun_cases operand group line tokens with
  | case1 | case6 => exact .of_category rfl
  | case2 | case3 | case4 => exact .ok _
  | case5 =>
      exact (groupRejects _ _).bind fun _ => (expect_onlyRejects _ _ _).map _

theorem joined_onlyRejects {rank : Nat} {next : Parser Expression}
    (nextRejects : ∀ line tokens, OnlyRejects (next line tokens)) (limit : Nat)
    (left : Expression) (tokens : List Located) :
    OnlyRejects (joined rank next limit left tokens) := by
  fun_induction joined rank next limit left tokens with
  | case1 _ _ _ _ _ _ _ ih => exact (nextRejects _ _).bind ih
  | case2 | case3 | case4 => exact .ok _

theorem ranked_onlyRejects {limit : Nat} {group : Parser Expression}
    (groupRejects : ∀ line tokens, OnlyRejects (group line tokens)) (rank line : Nat)
    (tokens : List Located) : OnlyRejects (ranked limit group rank line tokens) := by
  induction rank generalizing line tokens with
  | zero => exact operand_onlyRejects groupRejects line tokens
  | succ rank ih => exact (ih line tokens).bind fun _ => joined_onlyRejects ih _ _ _

theorem expressionWithin_onlyRejects (limit line : Nat) (tokens : List Located) :
    OnlyRejects (expressionWithin limit line tokens) := by
  induction limit generalizing line tokens with
  | zero => exact .of_category rfl
  | succ limit ih => exact ranked_onlyRejects ih _ line tokens

theorem condition_onlyRejects (limit line : Nat) (tokens : List Located) :
    OnlyRejects (condition limit line tokens) :=
  (expect_onlyRejects _ _ _).bind fun _ => (expressionWithin_onlyRejects _ _ _).bind fun _ =>
    (expect_onlyRejects _ _ _).map _

theorem closingExpression_onlyRejects (limit line : Nat) (tokens : List Located) :
    OnlyRejects (closingExpression limit line tokens) :=
  (expressionWithin_onlyRejects _ _ _).bind fun _ => (expect_onlyRejects _ _ _).map _

theorem declaration_onlyRejects (limit line : Nat) (tokens : List Located) :
    OnlyRejects (declaration limit line tokens) :=
  (name_onlyRejects _ _).bind fun _ => (expect_onlyRejects _ _ _).bind fun _ =>
    (closingExpression_onlyRejects _ _ _).map _

section

variable {nested : Parser Statement}

theorem blockRest_onlyRejects (nestedRejects : ∀ line tokens, OnlyRejects (nested line tokens))
    (opened limit : Nat) (tokens : List Located) :
    OnlyRejects (blockRest nested opened limit tokens) := by
  fun_induction blockRest nested opened limit tokens with
  | case1 => exact .ok _
  | case2 _ _ _ _ ih => exact (nestedRejects _ _).bind fun first => (ih first).map _
  | case3 => exact .of_category rfl

theorem blockOf_onlyRejects (nestedRejects : ∀ line tokens, OnlyRejects (nested line tokens))
    (limit line : Nat) (tokens : List Located) :
    OnlyRejects (blockOf limit nested line tokens) :=
  (expect_onlyRejects _ _ _).bind fun _ => blockRest_onlyRejects nestedRejects _ _ _

theorem alternative_onlyRejects (nestedRejects : ∀ line tokens, OnlyRejects (nested line tokens))
    (limit : Nat) (tokens : List Located) : OnlyRejects (alternative limit nested tokens) := by
  fun_cases alternative limit nested tokens with
  | case1 => exact (nestedRejects _ _).map _
  | case2 | case3 => exact blockOf_onlyRejects nestedRejects _ _ _
  | case4 | case5 => exact .ok _

theorem statementOf_onlyRejects (nestedRejects : ∀ line tokens, OnlyRejects (nested line tokens))
    (limit line : Nat) (tokens : List Located) :
    OnlyRejects (statementOf limit nested line tokens) := by
  fun_cases statementOf limit nested line tokens with
  | case1 | case7 => exact .of_category rfl
  | case2 => exact declaration_onlyRejects _ _ _
  | case3 =>
      exact (condition_onlyRejects _ _ _).bind fun _ =>
        (blockOf_onlyRejects nestedRejects _ _ _).bind fun _ =>
          (alternative_onlyRejects nestedRejects _ _).map _
  | case4 =>
      exact (condition_onlyRejects _ _ _).bind fun _ =>
        (blockOf_onlyRejects nestedRejects _ _ _).map _
  | case5 | case6 => exact (closingExpression_onlyRejects _ _ _).map _

end

theorem statementWithin_onlyRejects (limit line : Nat) (tokens : List Located) :
    OnlyRejects (statementWithin limit line tokens) := by
  induction limit generalizing line tokens with
  | zero => exact .of_category rfl
  | succ limit ih => exact statementOf_onlyRejects ih limit line tokens

theorem statementsWith_onlyRejects {nested : Parser Statement}
    (nestedRejects : ∀ line tokens, OnlyRejects (nested line tokens)) (limit : Nat)
    (tokens : List Located) : OnlyRejects (statementsWith nested limit tokens) := by
  fun_induction statementsWith nested limit tokens with
  | case1 _ _ _ ih => exact (nestedRejects _ _).bind fun first => (ih first).map _
  | case2 => exact .ok _

end Parse

theorem parseProgram_onlyRejects (source : String) : OnlyRejects (parseProgram source) :=
  (tokenize_onlyRejects source).bind fun tokens =>
    (Nesting.checkFrom_onlyRejects 0 tokens).bind fun _ =>
      Parse.statementsWith_onlyRejects (Parse.statementWithin_onlyRejects _) _ _

end WhileLang
