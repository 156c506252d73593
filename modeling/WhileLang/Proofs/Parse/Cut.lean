import WhileLang.Proofs.Parse.Limit

/-!
What the parsers make of tokens that are cut off. A parser that is done before it sees the cut, with
a node or with an error, gives the same result whatever comes behind the cut. One that sees the cut
takes all tokens or reports the end of the input, with one exception: a name at the start of a
statement is taken for an assignment only if the token behind it is there to be seen.
-/

namespace WhileLang.Parse

def EndsPlain (tokens : List Located) : Prop :=
  ∀ last, tokens.getLast? = some last → last.token ≠ .keyword .letWord

/-- The cut falls behind a name that is to be assigned to: an equals sign follows the name, and no
`let` stands in front of it. -/
def CutsTarget (tokens more : List Located) (name : String) (line : Nat) : Prop :=
  ∃ before, tokens = before ++ [⟨.identifier name, line⟩] ∧ EndsPlain before ∧ Begins .equals more

def AtEnd {α : Type} (result : Except Error (Parsed α)) : Prop :=
  (∃ node, result = .ok ⟨node, []⟩) ∨ ∃ line, result = .error ⟨line, .endOfInput⟩

inductive Cut {α : Type} (tokens more : List Located) (short long : Except Error (Parsed α)) : Prop
  | parsed {node rest} : rest ≠ [] → short = .ok ⟨node, rest⟩ →
      long = .ok ⟨node, rest ++ more⟩ → Cut tokens more short long
  | failed {error} : short = .error error → long = .error error → Cut tokens more short long
  | reached : AtEnd short → (∀ parsed, long = .ok parsed → parsed.rest <:+ more) →
      (∀ name line, CutsTarget tokens more name line →
        ∀ parsed, long = .ok parsed → parsed.rest = more) → Cut tokens more short long
  | target {name line} : CutsTarget tokens more name line →
      short = .error ⟨line, .unexpected (.statement (.identifier name))⟩ →
      (∀ parsed, long = .ok parsed → parsed.rest <:+ more) → Cut tokens more short long

/-- What a parser takes does not end in `let`; at the end of the tokens it asks for more or is
content; an equals sign is never its first token; and it can be cut anywhere. -/
structure Steady {α : Type} (parser : List Located → Except Error (Parsed α)) : Prop where
  takes : ∀ tokens parsed, parser tokens = .ok parsed →
    ∃ taken, tokens = taken ++ parsed.rest ∧ EndsPlain taken
  atEnd : AtEnd (parser [])
  leavesSign : ∀ tokens parsed, Begins .equals tokens → parser tokens = .ok parsed →
    parsed.rest = tokens
  cut : ∀ tokens more, Cut tokens more (parser tokens) (parser (tokens ++ more))

theorem endsPlain_nil : EndsPlain [] := by
  intro last isLast
  simp at isLast

theorem endsPlain_singleton {found : Located} (notLet : found.token ≠ .keyword .letWord) :
    EndsPlain [found] := by
  intro last isLast
  simp only [List.getLast?_singleton, Option.some.injEq] at isLast
  rwa [← isLast]

theorem EndsPlain.append {front back : List Located} (frontPlain : EndsPlain front)
    (backPlain : EndsPlain back) : EndsPlain (front ++ back) := by
  intro last isLast
  rw [List.getLast?_append, Option.or_eq_some_iff] at isLast
  rcases isLast with inBack | ⟨_, inFront⟩
  · exact backPlain last inBack
  · exact frontPlain last inFront

theorem EndsPlain.of_append {front back : List Located} (plain : EndsPlain (front ++ back)) :
    EndsPlain back := by
  intro last isLast
  exact plain last (by rw [List.getLast?_append, isLast, Option.some_or])

theorem CutsTarget.append {taken rest more : List Located} {name : String} {line : Nat}
    (cutsTarget : CutsTarget rest more name line) (plain : EndsPlain taken) :
    CutsTarget (taken ++ rest) more name line := by
  obtain ⟨before, rfl, beforePlain, sign⟩ := cutsTarget
  exact ⟨taken ++ before, by rw [List.append_assoc], plain.append beforePlain, sign⟩

theorem CutsTarget.of_append {taken rest more : List Located} {name : String} {line : Nat}
    (cutsTarget : CutsTarget (taken ++ rest) more name line) (nonempty : rest ≠ []) :
    CutsTarget rest more name line := by
  obtain ⟨before, split, plain, sign⟩ := cutsTarget
  rcases List.eq_nil_or_concat rest with rfl | ⟨rest, found, rfl⟩
  · exact absurd rfl nonempty
  · rw [List.concat_eq_append, ← List.append_assoc] at split
    obtain ⟨rfl, same⟩ := List.append_inj' split rfl
    exact ⟨rest, by rw [List.concat_eq_append, same], plain.of_append, sign⟩

theorem CutsTarget.getLast? {tokens more : List Located} {name : String} {line : Nat}
    (cutsTarget : CutsTarget tokens more name line) :
    tokens.getLast? = some ⟨.identifier name, line⟩ := by
  obtain ⟨before, rfl, _⟩ := cutsTarget
  exact List.getLast?_concat

/-- Tokens put in front of the cut ones change nothing, unless the last of them is the name behind
which the cut falls. -/
theorem Cut.append {α : Type} {taken rest more : List Located}
    {short long : Except Error (Parsed α)} (cut : Cut rest more short long)
    (plain : EndsPlain taken)
    (noTarget : rest = [] → ∀ name line, ¬ CutsTarget taken more name line) :
    Cut (taken ++ rest) more short long := by
  cases cut with
  | parsed nonempty shortFound longFound => exact .parsed nonempty shortFound longFound
  | failed shortFailed longFailed => exact .failed shortFailed longFailed
  | reached atEnd suffix leaves =>
      refine .reached atEnd suffix fun name line cutsTarget => ?_
      by_cases empty : rest = []
      · rw [empty, List.append_nil] at cutsTarget
        exact absurd cutsTarget (noTarget empty name line)
      · exact leaves name line (cutsTarget.of_append empty)
  | target cutsTarget shortFailed suffix =>
      exact .target (cutsTarget.append plain) shortFailed suffix

theorem Cut.of_node {α : Type} (tokens : List Located) (node : α) (rest more : List Located) :
    Cut tokens more (.ok ⟨node, rest⟩) (.ok ⟨node, rest ++ more⟩) := by
  by_cases empty : rest = []
  · subst empty
    refine .reached (Or.inl ⟨node, rfl⟩) ?_ ?_
    · rintro parsed ⟨⟩
      exact List.suffix_refl more
    · rintro name line _ parsed ⟨⟩
      rfl
  · exact .parsed empty rfl rfl

section

variable {α β : Type} {parser : List Located → Except Error (Parsed α)}

theorem AtEnd.rest_eq_nil {result : Except Error (Parsed α)} {parsed : Parsed α}
    (atEnd : AtEnd result) (found : result = .ok parsed) : parsed.rest = [] := by
  rcases atEnd with ⟨node, same⟩ | ⟨line, same⟩
  · rw [same, Except.ok.injEq] at found
    rw [← found]
  · rw [same] at found
    cases found

theorem Steady.suffix (steady : Steady parser) {tokens : List Located} {parsed : Parsed α}
    (found : parser tokens = .ok parsed) : parsed.rest <:+ tokens := by
  obtain ⟨taken, rfl, _⟩ := steady.takes tokens parsed found
  exact List.suffix_append taken parsed.rest

theorem Steady.pure (node : α) : Steady fun tokens => .ok ⟨node, tokens⟩ where
  takes := by
    rintro tokens parsed ⟨⟩
    exact ⟨[], rfl, endsPlain_nil⟩
  atEnd := Or.inl ⟨node, rfl⟩
  leavesSign := by
    rintro tokens parsed _ ⟨⟩
    rfl
  cut := fun tokens more => Cut.of_node tokens node tokens more

theorem Steady.end (line : Nat) :
    Steady fun _ : List Located => (.error ⟨line, .endOfInput⟩ : Except Error (Parsed α)) where
  takes := by
    rintro tokens parsed ⟨⟩
  atEnd := Or.inr ⟨line, rfl⟩
  leavesSign := by
    rintro tokens parsed _ ⟨⟩
  cut := fun tokens more => .failed rfl rfl

section bind

variable {first : List Located → Except Error (Parsed α)}
  {next : Parsed α → Except Error (Parsed β)}

theorem AtEnd.bind {result : Except Error (Parsed α)} (atEnd : AtEnd result)
    (nextAtEnd : ∀ node, AtEnd (next ⟨node, []⟩)) : AtEnd (result >>= next) := by
  rcases atEnd with ⟨node, rfl⟩ | ⟨line, rfl⟩
  · exact nextAtEnd node
  · exact Or.inr ⟨line, rfl⟩

theorem Steady.bind_cut (firstSteady : Steady first)
    (nextSteady : ∀ node, Steady fun tokens => next ⟨node, tokens⟩) (tokens more : List Located) :
    Cut tokens more (first tokens >>= next) (first (tokens ++ more) >>= next) := by
  have suffix {firstParsed : Parsed α} {parsed : Parsed β}
      (within : firstParsed.rest <:+ more) (found : next firstParsed = .ok parsed) :
      parsed.rest <:+ more :=
    ((nextSteady firstParsed.node).suffix found).trans within
  cases firstSteady.cut tokens more with
  | @parsed node rest nonempty shortFound longFound =>
      obtain ⟨taken, isTokens, plain⟩ := firstSteady.takes tokens _ shortFound
      rw [shortFound, longFound, isTokens]
      exact ((nextSteady node).cut rest more).append plain fun empty => absurd empty nonempty
  | failed shortFailed longFailed =>
      rw [shortFailed, longFailed]
      exact .failed rfl rfl
  | reached atEnd within leaves =>
      refine .reached (atEnd.bind fun node => (nextSteady node).atEnd) ?_ ?_
      · intro parsed longFound
        obtain ⟨firstParsed, firstFound, nextFound⟩ := bind_eq_ok_iff.mp longFound
        exact suffix (within firstParsed firstFound) nextFound
      · intro name line cutsTarget parsed longFound
        obtain ⟨⟨node, rest⟩, firstFound, nextFound⟩ := bind_eq_ok_iff.mp longFound
        obtain rfl : rest = more := leaves name line cutsTarget _ firstFound
        obtain ⟨_, _, _, sign⟩ := cutsTarget
        exact (nextSteady node).leavesSign rest parsed sign nextFound
  | target cutsTarget shortFailed within =>
      rw [shortFailed]
      refine .target cutsTarget rfl ?_
      intro parsed longFound
      obtain ⟨firstParsed, firstFound, nextFound⟩ := bind_eq_ok_iff.mp longFound
      exact suffix (within firstParsed firstFound) nextFound

theorem Steady.bind (firstSteady : Steady first)
    (nextSteady : ∀ node, Steady fun tokens => next ⟨node, tokens⟩) :
    Steady fun tokens => first tokens >>= next where
  takes := by
    intro tokens parsed found
    obtain ⟨⟨node, rest⟩, firstFound, nextFound⟩ := bind_eq_ok_iff.mp found
    obtain ⟨taken, isTokens, plain⟩ := firstSteady.takes _ _ firstFound
    obtain ⟨others, rfl, othersPlain⟩ := (nextSteady node).takes _ _ nextFound
    exact ⟨taken ++ others, by rw [isTokens, List.append_assoc], plain.append othersPlain⟩
  atEnd := firstSteady.atEnd.bind fun node => (nextSteady node).atEnd
  leavesSign := by
    intro tokens parsed sign found
    obtain ⟨⟨node, rest⟩, firstFound, nextFound⟩ := bind_eq_ok_iff.mp found
    obtain rfl : rest = tokens := firstSteady.leavesSign _ _ sign firstFound
    exact (nextSteady node).leavesSign _ _ sign nextFound
  cut := firstSteady.bind_cut nextSteady

theorem Steady.map (firstSteady : Steady first) (change : α → β) :
    Steady fun tokens => (first tokens).map fun parsed => ⟨change parsed.node, parsed.rest⟩ := by
  have bound : Steady fun tokens => first tokens >>= fun parsed =>
      .ok ⟨change parsed.node, parsed.rest⟩ :=
    firstSteady.bind fun node => Steady.pure (change node)
  have same (result : Except Error (Parsed α)) :
      (result >>= fun parsed => (.ok ⟨change parsed.node, parsed.rest⟩ : Except Error (Parsed β))) =
        result.map fun parsed => ⟨change parsed.node, parsed.rest⟩ := by
    cases result <;> rfl
  simpa only [same] using bound

end bind

structure SteadyAt (parser : List Located → Except Error (Parsed α)) (found : Located) : Prop where
  takes : ∀ rest parsed, parser (found :: rest) = .ok parsed →
    ∃ taken, found :: rest = taken ++ parsed.rest ∧ EndsPlain taken
  cut : ∀ rest more,
    Cut (found :: rest) more (parser (found :: rest)) (parser (found :: (rest ++ more)))

theorem Steady.of_first (atEnd : AtEnd (parser []))
    (noSign : ∀ line rest parsed, parser (⟨.equals, line⟩ :: rest) = .ok parsed →
      parsed.rest = ⟨.equals, line⟩ :: rest)
    (each : ∀ found, SteadyAt parser found) : Steady parser := by
  have takes : ∀ tokens parsed, parser tokens = .ok parsed →
      ∃ taken, tokens = taken ++ parsed.rest ∧ EndsPlain taken := by
    intro tokens parsed result
    cases tokens with
    | nil => exact ⟨[], by rw [atEnd.rest_eq_nil result, List.nil_append], endsPlain_nil⟩
    | cons found rest => exact (each found).takes rest parsed result
  refine ⟨takes, atEnd, ?_, ?_⟩
  · rintro tokens parsed ⟨line, rest, rfl⟩ result
    exact noSign line rest parsed result
  · intro tokens more
    cases tokens with
    | nil =>
        refine .reached atEnd ?_ ?_
        · intro parsed result
          obtain ⟨taken, isMore, _⟩ := takes _ parsed result
          rw [List.nil_append] at isMore
          exact ⟨taken, isMore.symm⟩
        · rintro name line ⟨before, split, _⟩
          simp at split
    | cons found rest => exact (each found).cut rest more

theorem SteadyAt.of_error {found : Located} {error : Error}
    (fails : ∀ rest, parser (found :: rest) = .error error) : SteadyAt parser found where
  takes := by
    intro rest parsed result
    rw [fails] at result
    cases result
  cut := fun rest more => .failed (fails rest) (fails (rest ++ more))

theorem SteadyAt.of_left {found : Located} {node : α}
    (leaves : ∀ rest, parser (found :: rest) = .ok ⟨node, found :: rest⟩) :
    SteadyAt parser found where
  takes := by
    intro rest parsed result
    rw [leaves, Except.ok.injEq] at result
    subst result
    exact ⟨[], rfl, endsPlain_nil⟩
  cut := fun rest more => .parsed (by simp) (leaves rest) (leaves (rest ++ more))

theorem SteadyAt.of_taken {found : Located} {node : α}
    (notLet : found.token ≠ .keyword .letWord)
    (taken : ∀ rest, parser (found :: rest) = .ok ⟨node, rest⟩) : SteadyAt parser found where
  takes := by
    intro rest parsed result
    rw [taken, Except.ok.injEq] at result
    subst result
    exact ⟨[found], rfl, endsPlain_singleton notLet⟩
  cut := by
    intro rest more
    rw [taken, taken]
    exact Cut.of_node (found :: rest) node rest more

theorem SteadyAt.of_whole {other : List Located → Except Error (Parsed α)} {found : Located}
    (steady : Steady other) (same : ∀ rest, parser (found :: rest) = other (found :: rest)) :
    SteadyAt parser found where
  takes := by
    intro rest parsed result
    rw [same] at result
    exact steady.takes _ _ result
  cut := by
    intro rest more
    rw [same, same]
    exact steady.cut (found :: rest) more

theorem SteadyAt.of_rest {other : List Located → Except Error (Parsed α)} {found : Located}
    (notLet : found.token ≠ .keyword .letWord) (notName : ∀ name, found.token ≠ .identifier name)
    (steady : Steady other) (same : ∀ rest, parser (found :: rest) = other rest) :
    SteadyAt parser found where
  takes := by
    intro rest parsed result
    rw [same] at result
    obtain ⟨taken, rfl, plain⟩ := steady.takes _ _ result
    exact ⟨[found] ++ taken, rfl, (endsPlain_singleton notLet).append plain⟩
  cut := by
    intro rest more
    rw [same, same]
    refine (steady.cut rest more).append (endsPlain_singleton notLet) ?_
    intro _ name line cutsTarget
    have isName : found = ⟨.identifier name, line⟩ := Option.some.inj cutsTarget.getLast?
    exact notName name (by rw [isName])

end

theorem expect_steady {expected : Token} (notSign : expected ≠ .equals)
    (notLet : expected ≠ .keyword .letWord) (line : Nat) : Steady (expect expected line) := by
  refine Steady.of_first (Or.inr ⟨line, rfl⟩) ?_ ?_
  · intro signLine rest parsed found
    simp [expect, notSign.symm] at found
  · intro found
    by_cases same : found.token = expected
    · exact SteadyAt.of_taken (by rwa [same]) fun rest => by rw [expect, if_pos same]
    · exact SteadyAt.of_error fun rest => by rw [expect, if_neg same]

def closedBy {α : Type} (ending : Token) (parser : Parser α) : Parser α := fun line tokens => do
  let inner ← parser line tokens
  let close ← expect ending line inner.rest
  return { node := inner.node, rest := close.rest }

theorem closedBy_steady {α : Type} {ending : Token} {parser : Parser α} (notSign : ending ≠ .equals)
    (notLet : ending ≠ .keyword .letWord) (parserSteady : ∀ line, Steady (parser line))
    (line : Nat) : Steady (closedBy ending parser line) := by
  apply (parserSteady line).bind
  intro node
  dsimp only
  apply (expect_steady notSign notLet line).bind
  intro _
  exact Steady.pure node

theorem operand_steady {group : Parser Expression} (groupSteady : ∀ line, Steady (group line))
    (line : Nat) : Steady (operand group line) := by
  refine Steady.of_first (Or.inr ⟨line, rfl⟩) ?_ ?_
  · rintro signLine rest parsed ⟨⟩
  · rintro ⟨token, tokenLine⟩
    cases token with
    | number | boolean | identifier => exact SteadyAt.of_taken (by simp) fun rest => rfl
    | openParen =>
        have inner : Steady (closedBy .closeParen group tokenLine) :=
          closedBy_steady (by decide) (by decide) groupSteady tokenLine
        exact SteadyAt.of_rest (by simp) (by simp) inner fun rest => rfl
    | _ => exact SteadyAt.of_error fun rest => rfl

theorem joined_steady {rank : Nat} {next : Parser Expression}
    (nextSteady : ∀ line, Steady (next line)) (limit : Nat) (left : Expression) :
    Steady (joined rank next limit left) := by
  induction limit generalizing left with
  | zero => exact Steady.pure left
  | succ limit ih =>
      refine Steady.of_first (Or.inl ⟨left, rfl⟩) ?_ ?_
      · rintro signLine rest parsed ⟨⟩
        rfl
      · rintro ⟨token, line⟩
        cases token with
        | operator op =>
            by_cases sameRank : op.rank = rank
            · have right : Steady fun tokens => next line tokens >>= fun right =>
                  joined rank next limit (.binary op left right.node line) right.rest :=
                (nextSteady line).bind fun node => ih (.binary op left node line)
              exact SteadyAt.of_rest (by simp) (by simp) right fun rest => joined_operator sameRank
            · refine SteadyAt.of_left fun rest => joined_ends ?_
              intro other begins same
              rw [begins_cons, Token.operator.injEq] at begins
              exact sameRank (begins ▸ same)
        | _ => exact SteadyAt.of_left fun rest => rfl

theorem ranked_steady {limit : Nat} {group : Parser Expression}
    (groupSteady : ∀ line, Steady (group line)) (rank line : Nat) :
    Steady (ranked limit group rank line) := by
  induction rank generalizing line with
  | zero => exact operand_steady groupSteady line
  | succ rank ih => exact (ih line).bind fun node => joined_steady ih limit node

theorem expressionWithin_steady (limit line : Nat) : Steady (expressionWithin limit line) := by
  induction limit generalizing line with
  | zero => exact Steady.end line
  | succ limit ih => exact ranked_steady ih Operator.loosest line

theorem closingExpression_steady (limit line : Nat) : Steady (closingExpression limit line) :=
  closedBy_steady (by decide) (by decide) (expressionWithin_steady limit) line

theorem condition_steady (limit line : Nat) : Steady (condition limit line) := by
  apply (expect_steady (by decide) (by decide) line).bind
  intro opened
  exact closedBy_steady (by decide) (by decide) (expressionWithin_steady limit) line

section

variable {nested : Parser Statement}

theorem blockRest_steady (nestedSteady : ∀ line, Steady (nested line)) (opened limit : Nat) :
    Steady (blockRest nested opened limit) := by
  induction limit with
  | zero => exact Steady.end opened
  | succ limit ih =>
      have onward (line : Nat) : Steady fun tokens => do
          let first ← nested line tokens
          let others ← blockRest nested opened limit first.rest
          return { node := first.node :: others.node, rest := others.rest } := by
        apply (nestedSteady line).bind
        intro node
        dsimp only
        apply ih.bind
        intro others
        exact Steady.pure (node :: others)
      refine Steady.of_first (Or.inr ⟨opened, rfl⟩) ?_ ?_
      · intro signLine rest parsed found
        exact (onward signLine).leavesSign _ _ (by simp) found
      · intro found
        by_cases closes : found.token = .closeBrace
        · exact SteadyAt.of_taken (by simp [closes]) fun rest => by rw [blockRest, if_pos closes]
        · exact SteadyAt.of_whole (onward found.line) fun rest => by rw [blockRest, if_neg closes]

theorem blockOf_steady (nestedSteady : ∀ line, Steady (nested line)) (limit line : Nat) :
    Steady (blockOf limit nested line) := by
  apply (expect_steady (by decide) (by decide) line).bind
  intro opened
  exact blockRest_steady nestedSteady opened limit

theorem alternative_steady (nestedSteady : ∀ line, Steady (nested line)) (limit : Nat) :
    Steady (alternative limit nested) := by
  have behindElse (line : Nat) : Steady fun rest =>
      alternative limit nested (⟨.keyword .elseWord, line⟩ :: rest) := by
    have block := blockOf_steady nestedSteady limit line
    refine Steady.of_first (Or.inr ⟨line, rfl⟩) ?_ ?_
    · intro signLine rest parsed found
      rw [alternative_block (by simp)] at found
      exact block.leavesSign _ _ (by simp) found
    · rintro ⟨token, tokenLine⟩
      by_cases isIf : token = .keyword .ifWord
      · subst isIf
        have chained := (nestedSteady line).map fun node => [node]
        exact SteadyAt.of_whole chained fun rest => alternative_chained
      · exact SteadyAt.of_whole block fun rest => alternative_block (by simpa using isIf)
  refine Steady.of_first (Or.inl ⟨[], rfl⟩) ?_ ?_
  · rintro signLine rest parsed ⟨⟩
    rfl
  · rintro ⟨token, line⟩
    by_cases isElse : token = .keyword .elseWord
    · subst isElse
      exact SteadyAt.of_rest (by simp) (by simp) (behindElse line) fun rest => rfl
    · exact SteadyAt.of_left fun rest => alternative_without (by simpa using isElse)

theorem branch_steady (nestedSteady : ∀ line, Steady (nested line)) (limit line : Nat) :
    Steady (branch limit nested line) := by
  apply (condition_steady limit line).bind
  intro test
  dsimp only
  apply (blockOf_steady nestedSteady limit line).bind
  intro whenTrue
  dsimp only
  apply (alternative_steady nestedSteady limit).bind
  intro whenFalse
  exact Steady.pure (Statement.branch test whenTrue whenFalse line)

theorem loop_steady (nestedSteady : ∀ line, Steady (nested line)) (limit line : Nat) :
    Steady (loop limit nested line) := by
  apply (condition_steady limit line).bind
  intro test
  dsimp only
  apply (blockOf_steady nestedSteady limit line).bind
  intro body
  exact Steady.pure (Statement.loop test body line)

theorem endsPlain_sign (taken : List Located) (line : Nat) :
    EndsPlain (taken ++ [⟨.equals, line⟩]) := by
  intro last isLast
  rw [List.getLast?_concat, Option.some.injEq] at isLast
  simp [← isLast]

theorem not_cutsTarget_sign (taken more : List Located) (signLine : Nat) (name : String)
    (line : Nat) : ¬ CutsTarget (taken ++ [⟨.equals, signLine⟩]) more name line := by
  intro cutsTarget
  have isName := cutsTarget.getLast?
  simp at isName

theorem cut_value (limit line : Nat) (node : Expression → Statement)
    (taken inner more : List Located) (signLine : Nat) :
    Cut (taken ++ [⟨.equals, signLine⟩] ++ inner) more
      ((closingExpression limit line inner).map fun value => ⟨node value.node, value.rest⟩)
      ((closingExpression limit line (inner ++ more)).map
        fun value => ⟨node value.node, value.rest⟩) := by
  have value := (closingExpression_steady limit line).map node
  refine (value.cut inner more).append (endsPlain_sign taken signLine) ?_
  intro _ name nameLine
  exact not_cutsTarget_sign taken more signLine name nameLine

theorem declaration_suffix {limit line : Nat} {tokens : List Located} {parsed : Parsed Statement}
    (found : declaration limit line tokens = .ok parsed) : parsed.rest <:+ tokens.drop 2 := by
  obtain ⟨target, nameLine, signLine, value, inner, rfl, valueParsed, _⟩ :=
    declaration_eq_ok_iff.mp found
  exact (closingExpression_steady limit line).suffix valueParsed

theorem declaration_no_sign {limit line nameLine signLine : Nat} {target : String} {token : Token}
    (noSign : token ≠ .equals) (rest : List Located) :
    declaration limit line (⟨.identifier target, nameLine⟩ :: ⟨token, signLine⟩ :: rest) =
      .error ⟨signLine, .unexpected (.token .equals token)⟩ := by
  simp [declaration, name, expect, noSign, bind, Except.bind]

/-- A declaration is the one statement whose name may stand right in front of the cut without being
an operand: the parser then asks for the equals sign. -/
theorem declaration_steadyAt (limit callerLine line : Nat) :
    SteadyAt (statementOf limit nested callerLine) ⟨.keyword .letWord, line⟩ := by
  constructor
  · intro rest parsed found
    obtain ⟨target, nameLine, signLine, value, inner, rfl, valueParsed, _⟩ :=
      declaration_eq_ok_iff.mp found
    obtain ⟨taken, rfl, plain⟩ := (closingExpression_steady limit line).takes _ _ valueParsed
    exact ⟨[⟨.keyword .letWord, line⟩, ⟨.identifier target, nameLine⟩] ++ [⟨.equals, signLine⟩] ++
      taken, rfl, (endsPlain_sign _ signLine).append plain⟩
  · intro rest more
    cases rest with
    | nil =>
        refine .reached (Or.inr ⟨line, rfl⟩) ?_ ?_
        · intro parsed found
          exact (declaration_suffix found).trans (List.drop_suffix 2 more)
        · intro name nameLine cutsTarget
          have isName := cutsTarget.getLast?
          simp at isName
    | cons next others =>
        obtain ⟨token, nameLine⟩ := next
        cases token with
        | identifier target =>
            cases others with
            | nil =>
                refine .reached (Or.inr ⟨line, rfl⟩) ?_ ?_
                · intro parsed found
                  exact (declaration_suffix found).trans (List.drop_suffix 1 more)
                · rintro name otherLine ⟨before, split, plain, _⟩
                  have isBefore := congrArg List.dropLast split
                  rw [List.dropLast_concat] at isBefore
                  subst isBefore
                  exact absurd rfl (plain _ rfl)
            | cons sign inner =>
                obtain ⟨token, signLine⟩ := sign
                by_cases isSign : token = .equals
                · subst isSign
                  exact cut_value limit line (.declare target · line)
                    [⟨.keyword .letWord, line⟩, ⟨.identifier target, nameLine⟩] inner more signLine
                · exact .failed (declaration_no_sign isSign inner)
                    (declaration_no_sign isSign (inner ++ more))
        | boolean value => cases value <;> exact .failed rfl rfl
        | _ => exact .failed rfl rfl

/-- A name at the start of a statement is the one place where the parser does not ask for more. -/
theorem assign_steadyAt (limit callerLine line : Nat) (name : String) :
    SteadyAt (statementOf limit nested callerLine) ⟨.identifier name, line⟩ := by
  constructor
  · intro rest parsed found
    by_cases assigns : Begins .equals rest
    · obtain ⟨signLine, inner, rfl⟩ := assigns
      obtain ⟨value, valueParsed, _⟩ := assign_eq_ok_iff.mp found
      obtain ⟨taken, rfl, plain⟩ := (closingExpression_steady limit line).takes _ _ valueParsed
      exact ⟨[⟨.identifier name, line⟩] ++ [⟨.equals, signLine⟩] ++ taken, rfl,
        (endsPlain_sign _ signLine).append plain⟩
    · rw [statementOf_identifier assigns] at found
      cases found
  · intro rest more
    cases rest with
    | nil =>
        by_cases assigns : Begins .equals more
        · refine .target ⟨[], rfl, endsPlain_nil, assigns⟩ (statementOf_identifier (by simp)) ?_
          intro parsed found
          obtain ⟨signLine, inner, rfl⟩ := assigns
          obtain ⟨value, valueParsed, _⟩ := assign_eq_ok_iff.mp found
          have suffix := (closingExpression_steady limit line).suffix valueParsed
          exact suffix.trans (List.suffix_cons _ inner)
        · exact .failed (statementOf_identifier (by simp)) (statementOf_identifier assigns)
    | cons sign inner =>
        obtain ⟨token, signLine⟩ := sign
        by_cases isSign : token = .equals
        · subst isSign
          exact cut_value limit line (.assign name · line) [⟨.identifier name, line⟩] inner more
            signLine
        · exact .failed (statementOf_identifier (by simpa using isSign))
            (statementOf_identifier (by simpa using isSign))

theorem statementOf_steady (nestedSteady : ∀ line, Steady (nested line)) (limit line : Nat) :
    Steady (statementOf limit nested line) := by
  refine Steady.of_first (Or.inr ⟨line, rfl⟩) ?_ ?_
  · rintro signLine rest parsed ⟨⟩
  · rintro ⟨token, tokenLine⟩
    cases token with
    | keyword word =>
        cases word with
        | letWord => exact declaration_steadyAt limit line tokenLine
        | ifWord =>
            exact SteadyAt.of_rest (by simp) (by simp) (branch_steady nestedSteady limit tokenLine)
              fun rest => rfl
        | whileWord =>
            exact SteadyAt.of_rest (by simp) (by simp) (loop_steady nestedSteady limit tokenLine)
              fun rest => rfl
        | printWord =>
            have printed := (closingExpression_steady limit tokenLine).map
              fun value => Statement.print value tokenLine
            exact SteadyAt.of_rest (by simp) (by simp) printed fun rest => rfl
        | elseWord => exact SteadyAt.of_error fun rest => rfl
    | identifier name => exact assign_steadyAt limit line tokenLine name
    | _ => exact SteadyAt.of_error fun rest => rfl

end

theorem statementWithin_steady (limit line : Nat) : Steady (statementWithin limit line) := by
  induction limit generalizing line with
  | zero => exact Steady.end line
  | succ limit ih => exact statementOf_steady ih limit line

end WhileLang.Parse
