import WhileLang.Proofs.Acceptance
import WhileLang.Proofs.Parse.Completion

/-!
What it means that the end of the input is reported. The tokens are then the beginning of a program:
some statements that are finished, and the beginning of one more. How the tokens are divided into
the two is determined, and the reported line is that of a token of the unfinished statement.
-/

namespace WhileLang

namespace Grammar

open Parse

/-- Finished statements, and the beginning of one more that is not finished. -/
structure Interrupted (finished unfinished : List Located) : Prop where
  program : ∃ depth nodes, Program depth finished nodes
  begun : unfinished ≠ []
  incomplete : ¬ Formed .statement unfinished
  completed : ∃ more, Formed .statement (unfinished ++ more)

theorem Derives.rest_eq_nil {first whole : Statement} {depth wholeDepth : Nat}
    {front rest : List Located} (derivation : Derives (.statement first) depth front)
    (wholeDerived : Derives (.statement whole) wholeDepth (front ++ rest))
    (noElse : ¬ Begins (.keyword .elseWord) rest) : rest = [] := by
  have short := readsPhrase_of_derives derivation (front ++ rest).length 0 rest
    (Nat.le_refl _) fun _ => noElse
  have long := readsPhrase_of_derives wholeDerived (front ++ rest).length 0 []
    (by simp) fun _ => not_begins_nil
  rw [List.append_nil, short] at long
  simp only [Except.ok.injEq, Parsed.mk.injEq] at long
  exact long.2

theorem Program.of_append {front back : List Located} {depth wholeDepth : Nat}
    {nodes whole : List Statement} (derivation : Program depth front nodes)
    (wholeDerivation : Program wholeDepth (front ++ back) whole)
    (noElse : ¬ Begins (.keyword .elseWord) back) :
    ∃ backDepth others, Program backDepth back others := by
  have parsed := statements_append derivation noElse
  rw [statements_of_derives wholeDerivation] at parsed
  obtain ⟨others, backParsed, _⟩ := map_eq_ok_iff.mp parsed.symm
  obtain ⟨backDepth, backDerivation⟩ := statements_eq_ok_iff.mp backParsed
  exact ⟨backDepth, others, backDerivation⟩

theorem Formed.noElse {tokens : List Located} (formed : Formed .statement tokens) :
    ¬ Begins (.keyword .elseWord) tokens := by
  obtain ⟨depth, node, derivation⟩ := formed
  obtain ⟨found, others, rfl, _, notElse⟩ := derivation.statement_head
  simpa using notElse

theorem Program.append_statement {front back : List Located} {depth : Nat}
    {nodes : List Statement} (derivation : Program depth front nodes)
    (formed : Formed .statement back) :
    ∃ wholeDepth whole, Program wholeDepth (front ++ back) whole := by
  have parsed := statements_append derivation formed.noElse
  obtain ⟨backDepth, node, backDerivation⟩ := formed
  rw [statements_of_derives (Program.single backDerivation)] at parsed
  obtain ⟨wholeDepth, wholeDerivation⟩ := statements_eq_ok_iff.mp parsed
  exact ⟨wholeDepth, _, wholeDerivation⟩

theorem Interrupted.noElse {finished unfinished : List Located}
    (interrupted : Interrupted finished unfinished) (more : List Located) :
    ¬ Begins (.keyword .elseWord) (unfinished ++ more) := by
  obtain ⟨further, formed⟩ := interrupted.completed
  have notElse := formed.noElse
  cases unfinished with
  | nil => exact absurd rfl interrupted.begun
  | cons first rest => simpa using notElse

/-- Between two ways to divide the same tokens there would be finished statements that an unfinished
one begins with. -/
theorem Interrupted.middle_eq_nil {finished middle unfinished : List Located}
    (early : Interrupted finished (middle ++ unfinished))
    (late : Interrupted (finished ++ middle) unfinished) : middle = [] := by
  obtain ⟨depth, nodes, derivation⟩ := early.program
  obtain ⟨lateDepth, lateNodes, lateDerivation⟩ := late.program
  have middleNoElse : ¬ Begins (.keyword .elseWord) middle := by
    rintro ⟨line, rest, rfl⟩
    exact early.noElse [] (by simp)
  obtain ⟨_, others, middleDerivation⟩ := derivation.of_append lateDerivation middleNoElse
  cases middleDerivation with
  | nil => rfl
  | cons firstDerived othersDerived =>
      obtain ⟨more, _, whole, wholeDerived⟩ := early.completed
      rw [List.append_assoc, List.append_assoc] at wholeDerived
      have empty := firstDerived.rest_eq_nil wholeDerived
        (othersDerived.statements_noElse (late.noElse more))
      simp [late.begun] at empty

theorem Interrupted.unique {finished unfinished otherFinished otherUnfinished : List Located}
    (interrupted : Interrupted finished unfinished)
    (other : Interrupted otherFinished otherUnfinished)
    (same : finished ++ unfinished = otherFinished ++ otherUnfinished) :
    otherFinished = finished ∧ otherUnfinished = unfinished := by
  rcases List.append_eq_append_iff.mp same with ⟨middle, rfl, rfl⟩ | ⟨middle, rfl, rfl⟩
  · simp [interrupted.middle_eq_nil other]
  · simp [other.middle_eq_nil interrupted]

end Grammar

namespace Parse

open Grammar

theorem statementsWith_endOfInput {bound : Nat} {nested : Parser Statement}
    (takes : TakesStatement nested) (completes : Completes bound (Formed .statement) nested)
    {limit line : Nat} {tokens : List Located} (within : tokens.length ≤ bound)
    (failed : statementsWith nested limit tokens = .error ⟨line, .endOfInput⟩) :
    ∃ finished unfinished, tokens = finished ++ unfinished ∧
      (∃ depth nodes, Program depth finished nodes) ∧ unfinished ≠ [] ∧
      (∃ more, Formed .statement (unfinished ++ more)) ∧
      ∃ found ∈ unfinished, found.line = line := by
  induction limit generalizing tokens with
  | zero => cases failed
  | succ limit ih =>
      cases tokens with
      | nil => cases failed
      | cons found rest =>
          rcases bind_eq_error_iff.mp failed with firstFailed | ⟨first, firstParsed, failed⟩
          · obtain ⟨completed, place⟩ := completes found.line (found :: rest) within _ firstFailed
            refine ⟨[], found :: rest, rfl, ⟨0, [], Derives.nil⟩, by simp, completed, ?_⟩
            rcases place with rfl | isMember
            · exact ⟨found, List.mem_cons_self, rfl⟩
            · exact isMember
          · have shorter := (takes _ _ _ firstParsed).shorter
            obtain ⟨depth, front, split, firstDerived⟩ := takes _ _ _ firstParsed
            rcases bind_eq_error_iff.mp failed with othersFailed | ⟨others, _, returned⟩
            · obtain ⟨finished, unfinished, isRest, ⟨othersDepth, others, othersDerived⟩, begun,
                completed, place⟩ := ih (by omega) othersFailed
              refine ⟨front ++ finished, unfinished, ?_, ⟨_, _, firstDerived.cons othersDerived⟩,
                begun, completed, place⟩
              rw [split, isRest, List.append_assoc]
            · cases returned

theorem line_between {front back : List Located} {found : Located}
    (ordered : (front ++ back).Pairwise fun first second => first.line ≤ second.line)
    (isMember : found ∈ back) :
    (∀ first ∈ back.head?, first.line ≤ found.line) ∧
      ∀ last ∈ (front ++ back).getLast?, found.line ≤ last.line := by
  constructor
  · intro first isFirst
    have backOrdered := (List.pairwise_append.mp ordered).2.1
    cases back with
    | nil => cases isFirst
    | cons head others =>
        obtain rfl : head = first := Option.some.inj isFirst
        rcases List.mem_cons.mp isMember with rfl | isLater
        · exact Nat.le_refl _
        · exact List.rel_of_pairwise_cons backOrdered isLater
  · intro last isLast
    obtain ⟨before, split⟩ := List.getLast?_eq_some_iff.mp isLast
    have isToken : found ∈ before ++ [last] := split ▸ List.mem_append_right front isMember
    rw [split] at ordered
    rcases List.mem_append.mp isToken with isEarlier | isSame
    · exact (List.pairwise_append.mp ordered).2.2 found isEarlier last List.mem_cons_self
    · obtain rfl := List.mem_singleton.mp isSame
      exact Nat.le_refl _

/-- Where the end of the input is reported, the tokens are the beginning of a program. They are
finished statements and the beginning of one more, in one way only, and the line is that of a token
of the unfinished statement. -/
theorem statements_endOfInput {tokens : List Located} {line : Nat}
    (ordered : tokens.Pairwise fun first second => first.line ≤ second.line)
    (failed : statements tokens = .error ⟨line, .endOfInput⟩) :
    (∃ more depth program, Program depth (tokens ++ more) program) ∧
    ∃ finished unfinished, tokens = finished ++ unfinished ∧ Interrupted finished unfinished ∧
      (∀ otherFinished otherUnfinished, tokens = otherFinished ++ otherUnfinished →
        Interrupted otherFinished otherUnfinished →
        otherFinished = finished ∧ otherUnfinished = unfinished) ∧
      (∃ found ∈ unfinished, found.line = line) ∧
      (∀ first ∈ unfinished.head?, first.line ≤ line) ∧
      (∀ last ∈ tokens.getLast?, line ≤ last.line) := by
  obtain ⟨finished, unfinished, rfl, ⟨depth, nodes, derivation⟩, begun, completed, place⟩ :=
    statementsWith_endOfInput (statementWithin_takes _) (statementWithin_wants _) (Nat.le_refl _)
      failed
  have incomplete : ¬ Formed .statement unfinished := by
    intro formed
    obtain ⟨_, program, whole⟩ := derivation.append_statement formed
    rw [statements_of_derives whole] at failed
    cases failed
  have interrupted : Interrupted finished unfinished :=
    ⟨⟨depth, nodes, derivation⟩, begun, incomplete, completed⟩
  refine ⟨?_, finished, unfinished, rfl, interrupted, ?_, place, ?_⟩
  · obtain ⟨more, formed⟩ := completed
    obtain ⟨wholeDepth, program, whole⟩ := derivation.append_statement formed
    exact ⟨more, wholeDepth, program, by rwa [List.append_assoc]⟩
  · intro otherFinished otherUnfinished same other
    exact interrupted.unique other same
  · obtain ⟨found, isMember, rfl⟩ := place
    exact line_between ordered isMember

theorem statements_endOfInput_operand :
    statements [⟨.keyword .printWord, 1⟩, ⟨.number 1, 1⟩, ⟨.semicolon, 2⟩, ⟨.keyword .ifWord, 3⟩,
        ⟨.openParen, 3⟩, ⟨.identifier "x", 4⟩, ⟨.operator .add, 5⟩] =
      .error ⟨5, .endOfInput⟩ ∧
    (∃ more depth program, Program depth ([⟨.keyword .printWord, 1⟩, ⟨.number 1, 1⟩,
        ⟨.semicolon, 2⟩, ⟨.keyword .ifWord, 3⟩, ⟨.openParen, 3⟩, ⟨.identifier "x", 4⟩,
        ⟨.operator .add, 5⟩] ++ more) program) ∧
    ∃ finished unfinished, [⟨.keyword .printWord, 1⟩, ⟨.number 1, 1⟩, ⟨.semicolon, 2⟩,
        ⟨.keyword .ifWord, 3⟩, ⟨.openParen, 3⟩, ⟨.identifier "x", 4⟩, ⟨.operator .add, 5⟩] =
      finished ++ unfinished ∧ Interrupted finished unfinished ∧
      ∃ found ∈ unfinished, found.line = 5 := by
  have failed : statements [⟨.keyword .printWord, 1⟩, ⟨.number 1, 1⟩, ⟨.semicolon, 2⟩,
      ⟨.keyword .ifWord, 3⟩, ⟨.openParen, 3⟩, ⟨.identifier "x", 4⟩, ⟨.operator .add, 5⟩] =
      .error ⟨5, .endOfInput⟩ := rfl
  obtain ⟨completed, finished, unfinished, split, interrupted, _, place, _⟩ :=
    statements_endOfInput (by decide) failed
  exact ⟨failed, completed, finished, unfinished, split, interrupted, place⟩

end Parse

end WhileLang
