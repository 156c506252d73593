import WhileLang.Parse.Statement

/-!
What the tokens look like when a parser succeeds. Each statement reads a parser without repetition
off as the tokens it takes and the results of the parsers it calls, and holds in both directions.
-/

namespace WhileLang.Parse

theorem bind_eq_ok_iff {α β : Type} {first : Except Error α} {next : α → Except Error β}
    {result : β} :
    (first >>= next) = .ok result ↔ ∃ value, first = .ok value ∧ next value = .ok result := by
  cases first with
  | error error => simp [bind, Except.bind]
  | ok value => simp [bind, Except.bind]

theorem bind_eq_error_iff {α β : Type} {first : Except Error α} {next : α → Except Error β}
    {error : Error} :
    (first >>= next) = .error error ↔
      first = .error error ∨ ∃ value, first = .ok value ∧ next value = .error error := by
  cases first with
  | error failure => simp [bind, Except.bind]
  | ok value => simp [bind, Except.bind]

theorem map_eq_ok_iff {α β : Type} {first : Except Error α} {next : α → β} {result : β} :
    first.map next = .ok result ↔ ∃ value, first = .ok value ∧ next value = result := by
  cases first with
  | error error => simp [Except.map]
  | ok value => simp [Except.map]

theorem pure_eq_ok_iff {α : Type} {value result : α} :
    (pure value : Except Error α) = .ok result ↔ value = result := by
  simp [pure, Except.pure]

theorem expect_eq_ok_iff {expected : Token} {line : Nat} {tokens : List Located}
    {parsed : Parsed Nat} :
    expect expected line tokens = .ok parsed ↔
      tokens = ⟨expected, parsed.node⟩ :: parsed.rest := by
  obtain ⟨node, rest⟩ := parsed
  cases tokens with
  | nil => simp [expect]
  | cons found others =>
      obtain ⟨token, tokenLine⟩ := found
      by_cases same : token = expected
      · simp [expect, same]
      · simp [expect, same]

theorem name_eq_ok_iff {line : Nat} {tokens : List Located} {parsed : Parsed String} :
    name line tokens = .ok parsed ↔
      ∃ nameLine, tokens = ⟨.identifier parsed.node, nameLine⟩ :: parsed.rest := by
  obtain ⟨node, rest⟩ := parsed
  cases tokens with
  | nil => simp [name]
  | cons found others =>
      obtain ⟨token, tokenLine⟩ := found
      cases token with
      | identifier text => simp [name]
      | boolean value => cases value <;> simp [name, Token.reserved?]
      | _ => simp [name, Token.reserved?]

theorem condition_eq_ok_iff {limit line : Nat} {tokens : List Located}
    {parsed : Parsed Expression} :
    condition limit line tokens = .ok parsed ↔
      ∃ opened closed inner, tokens = ⟨.openParen, opened⟩ :: inner ∧
        expressionWithin limit line inner =
          .ok ⟨parsed.node, ⟨.closeParen, closed⟩ :: parsed.rest⟩ := by
  obtain ⟨node, rest⟩ := parsed
  simp only [condition, bind_eq_ok_iff, expect_eq_ok_iff, pure_eq_ok_iff, Parsed.mk.injEq]
  constructor
  · rintro ⟨⟨opened, inner⟩, found, ⟨node', others⟩, parsed, ⟨closed, rest'⟩, rfl, rfl, rfl⟩
    exact ⟨opened, closed, inner, found, parsed⟩
  · rintro ⟨opened, closed, inner, found, parsed⟩
    exact ⟨⟨opened, inner⟩, found, _, parsed, ⟨closed, rest⟩, rfl, rfl, rfl⟩

theorem closingExpression_eq_ok_iff {limit line : Nat} {tokens : List Located}
    {parsed : Parsed Expression} :
    closingExpression limit line tokens = .ok parsed ↔
      ∃ closed, expressionWithin limit line tokens =
        .ok ⟨parsed.node, ⟨.semicolon, closed⟩ :: parsed.rest⟩ := by
  obtain ⟨node, rest⟩ := parsed
  simp only [closingExpression, bind_eq_ok_iff, expect_eq_ok_iff, pure_eq_ok_iff,
    Parsed.mk.injEq]
  constructor
  · rintro ⟨⟨node', others⟩, parsed, ⟨closed, rest'⟩, rfl, rfl, rfl⟩
    exact ⟨closed, parsed⟩
  · rintro ⟨closed, parsed⟩
    exact ⟨_, parsed, ⟨closed, rest⟩, rfl, rfl, rfl⟩

theorem blockOf_eq_ok_iff {limit line : Nat} {nested : Parser Statement}
    {tokens : List Located} {parsed : Parsed (List Statement)} :
    blockOf limit nested line tokens = .ok parsed ↔
      ∃ opened inner, tokens = ⟨.openBrace, opened⟩ :: inner ∧
        blockRest nested opened limit inner = .ok parsed := by
  simp only [blockOf, bind_eq_ok_iff, expect_eq_ok_iff]
  constructor
  · rintro ⟨⟨opened, inner⟩, found, parsed⟩
    exact ⟨opened, inner, found, parsed⟩
  · rintro ⟨opened, inner, found, parsed⟩
    exact ⟨⟨opened, inner⟩, found, parsed⟩

theorem declaration_eq_ok_iff {limit line : Nat} {tokens : List Located}
    {parsed : Parsed Statement} :
    declaration limit line tokens = .ok parsed ↔
      ∃ target nameLine signLine value inner,
        tokens = ⟨.identifier target, nameLine⟩ :: ⟨.equals, signLine⟩ :: inner ∧
        closingExpression limit line inner = .ok ⟨value, parsed.rest⟩ ∧
        parsed.node = .declare target value line := by
  obtain ⟨node, rest⟩ := parsed
  simp only [declaration, bind_eq_ok_iff, expect_eq_ok_iff, name_eq_ok_iff, pure_eq_ok_iff,
    Parsed.mk.injEq]
  constructor
  · rintro ⟨⟨target, others⟩, ⟨nameLine, rfl⟩, ⟨signLine, inner⟩, rfl, ⟨value, rest'⟩, parsed,
      rfl, rfl⟩
    exact ⟨target, nameLine, signLine, value, inner, rfl, parsed, rfl⟩
  · rintro ⟨target, nameLine, signLine, value, inner, rfl, parsed, rfl⟩
    exact ⟨⟨target, _⟩, ⟨nameLine, rfl⟩, ⟨signLine, inner⟩, rfl, _, parsed, rfl, rfl⟩

theorem branch_eq_ok_iff {limit line : Nat} {nested : Parser Statement} {tokens : List Located}
    {parsed : Parsed Statement} :
    branch limit nested line tokens = .ok parsed ↔
      ∃ test whenTrue whenFalse afterTest afterTrue,
        condition limit line tokens = .ok ⟨test, afterTest⟩ ∧
        blockOf limit nested line afterTest = .ok ⟨whenTrue, afterTrue⟩ ∧
        alternative limit nested afterTrue = .ok ⟨whenFalse, parsed.rest⟩ ∧
        parsed.node = .branch test whenTrue whenFalse line := by
  obtain ⟨node, rest⟩ := parsed
  simp only [branch, bind_eq_ok_iff, pure_eq_ok_iff, Parsed.mk.injEq]
  constructor
  · rintro ⟨⟨test, afterTest⟩, tested, ⟨whenTrue, afterTrue⟩, whenTrueParsed,
      ⟨whenFalse, rest'⟩, whenFalseParsed, rfl, rfl⟩
    exact ⟨test, whenTrue, whenFalse, afterTest, afterTrue, tested, whenTrueParsed,
      whenFalseParsed, rfl⟩
  · rintro ⟨test, whenTrue, whenFalse, afterTest, afterTrue, tested, whenTrueParsed,
      whenFalseParsed, rfl⟩
    exact ⟨_, tested, _, whenTrueParsed, _, whenFalseParsed, rfl, rfl⟩

theorem loop_eq_ok_iff {limit line : Nat} {nested : Parser Statement} {tokens : List Located}
    {parsed : Parsed Statement} :
    loop limit nested line tokens = .ok parsed ↔
      ∃ test body afterTest,
        condition limit line tokens = .ok ⟨test, afterTest⟩ ∧
        blockOf limit nested line afterTest = .ok ⟨body, parsed.rest⟩ ∧
        parsed.node = .loop test body line := by
  obtain ⟨node, rest⟩ := parsed
  simp only [loop, bind_eq_ok_iff, pure_eq_ok_iff, Parsed.mk.injEq]
  constructor
  · rintro ⟨⟨test, afterTest⟩, tested, ⟨body, rest'⟩, bodyParsed, rfl, rfl⟩
    exact ⟨test, body, afterTest, tested, bodyParsed, rfl⟩
  · rintro ⟨test, body, afterTest, tested, bodyParsed, rfl⟩
    exact ⟨_, tested, _, bodyParsed, rfl, rfl⟩

theorem print_eq_ok_iff {limit line callerLine : Nat} {nested : Parser Statement}
    {tokens : List Located} {parsed : Parsed Statement} :
    statementOf limit nested callerLine (⟨.keyword .printWord, line⟩ :: tokens) = .ok parsed ↔
      ∃ value, closingExpression limit line tokens = .ok ⟨value, parsed.rest⟩ ∧
        parsed.node = .print value line := by
  obtain ⟨node, rest⟩ := parsed
  simp only [statementOf, bind_eq_ok_iff, pure_eq_ok_iff, Parsed.mk.injEq]
  constructor
  · rintro ⟨⟨value, rest'⟩, valueParsed, rfl, rfl⟩
    exact ⟨value, valueParsed, rfl⟩
  · rintro ⟨value, valueParsed, rfl⟩
    exact ⟨_, valueParsed, rfl, rfl⟩

theorem assign_eq_ok_iff {limit line signLine callerLine : Nat} {nested : Parser Statement}
    {target : String} {tokens : List Located} {parsed : Parsed Statement} :
    statementOf limit nested callerLine
        (⟨.identifier target, line⟩ :: ⟨.equals, signLine⟩ :: tokens) = .ok parsed ↔
      ∃ value, closingExpression limit line tokens = .ok ⟨value, parsed.rest⟩ ∧
        parsed.node = .assign target value line := by
  obtain ⟨node, rest⟩ := parsed
  simp only [statementOf, bind_eq_ok_iff, pure_eq_ok_iff, Parsed.mk.injEq]
  constructor
  · rintro ⟨⟨value, rest'⟩, valueParsed, rfl, rfl⟩
    exact ⟨value, valueParsed, rfl⟩
  · rintro ⟨value, valueParsed, rfl⟩
    exact ⟨_, valueParsed, rfl, rfl⟩

def Begins (token : Token) (tokens : List Located) : Prop :=
  ∃ line rest, tokens = ⟨token, line⟩ :: rest

@[simp] theorem begins_cons {token : Token} {found : Located} {rest : List Located} :
    Begins token (found :: rest) ↔ found.token = token := by
  obtain ⟨other, line⟩ := found
  simp [Begins]

@[simp] theorem not_begins_nil {token : Token} : ¬ Begins token [] := by
  simp [Begins]

theorem statementOf_identifier {limit line callerLine : Nat} {nested : Parser Statement}
    {name : String} {rest : List Located} (noSign : ¬ Begins .equals rest) :
    statementOf limit nested callerLine (⟨.identifier name, line⟩ :: rest) =
      .error ⟨line, .unexpected (.statement (.identifier name))⟩ := by
  cases rest with
  | nil => rfl
  | cons next others =>
      obtain ⟨token, nextLine⟩ := next
      cases token with
      | equals => simp at noSign
      | _ => rfl

theorem alternative_without {limit : Nat} {nested : Parser Statement} {tokens : List Located}
    (noElse : ¬ Begins (.keyword .elseWord) tokens) :
    alternative limit nested tokens = .ok ⟨[], tokens⟩ := by
  cases tokens with
  | nil => rfl
  | cons found rest =>
      rw [begins_cons] at noElse
      simp [alternative, noElse]

theorem alternative_chained {limit line ifLine : Nat} {nested : Parser Statement}
    {rest : List Located} :
    alternative limit nested (⟨.keyword .elseWord, line⟩ :: ⟨.keyword .ifWord, ifLine⟩ :: rest) =
      (nested line (⟨.keyword .ifWord, ifLine⟩ :: rest)).map
        fun chained => ⟨[chained.node], chained.rest⟩ := by
  simp only [alternative, if_true]
  cases nested line (⟨.keyword .ifWord, ifLine⟩ :: rest) with
  | error error => rfl
  | ok chained => rfl

theorem alternative_block {limit line : Nat} {nested : Parser Statement} {rest : List Located}
    (noIf : ¬ Begins (.keyword .ifWord) rest) :
    alternative limit nested (⟨.keyword .elseWord, line⟩ :: rest) =
      blockOf limit nested line rest := by
  cases rest with
  | nil => rfl
  | cons next others =>
      rw [begins_cons] at noIf
      simp [alternative, noIf]

theorem joined_operator {rank limit line : Nat} {next : Parser Expression} {op : Operator}
    {left : Expression} {rest : List Located} (sameRank : op.rank = rank) :
    joined rank next (limit + 1) left (⟨.operator op, line⟩ :: rest) =
      (do let right ← next line rest
          joined rank next limit (.binary op left right.node line) right.rest) := by
  simp [joined, Token.operator?, sameRank]

def Ends (rank : Nat) (tokens : List Located) : Prop :=
  ∀ op, Begins (.operator op) tokens → op.rank ≠ rank

theorem joined_ends {rank limit : Nat} {next : Parser Expression} {left : Expression}
    {tokens : List Located} (ends : Ends rank tokens) :
    joined rank next limit left tokens = .ok ⟨left, tokens⟩ := by
  cases limit with
  | zero => rfl
  | succ limit =>
      cases tokens with
      | nil => rfl
      | cons found rest =>
          obtain ⟨token, line⟩ := found
          cases token with
          | operator op =>
              have different : op.rank ≠ rank := ends op (by simp)
              simp [joined, Token.operator?, different]
          | _ => rfl

end WhileLang.Parse
