import WhileLang.Proofs.Acceptance
import WhileLang.Proofs.Layout
import WhileLang.Proofs.LineEnds

/-!
Sources put one behind the other, with a line end between them. The program of the first source is
followed by that of the second, or by its error, as many lines further down as the first takes up.
The one exception is an `else` at the start of the second source: a branch at the end of the first
that has no `else` takes it.
-/

namespace WhileLang

open Grammar

theorem Parse.checkedStatements_append {depth : Nat} {front rest : List Located}
    {program : List Statement} (derivation : Program depth front program)
    (shallow : depth ≤ Nesting.limit) (separate : Separate (.statements program) front rest) :
    checkedStatements (front ++ rest) = (checkedStatements rest).map (program ++ ·) := by
  simp only [checkedStatements]
  rw [Nesting.check_append derivation shallow, statements_append_separate derivation separate]
  cases Nesting.check rest <;> rfl

/-- The second source goes on with a branch that the first one leaves without an `else`. -/
def Continues (source other : String) : Prop :=
  ∃ tokens otherTokens program, tokenize source = .ok tokens ∧ tokenize other = .ok otherTokens ∧
    Dangles (.statements program) tokens ∧ Parse.Begins (.keyword .elseWord) otherTokens

theorem parseProgram_append_line {source other : String} {program : List Statement}
    (accepted : parseProgram source = .ok program) (separate : ¬ Continues source other) :
    parseProgram (source ++ "\n" ++ other) =
      (moveProgram (· + (1 + source.toList.count '\n')) (parseProgram other)).map
        (program ++ ·) := by
  obtain ⟨tokens, depth, scanned, derivation, shallow⟩ := exists_derivation accepted
  have joined := Lexicon.tokenize_append_line scanned (Derives.apart derivation) other
  cases otherScanned : tokenize other with
  | error error =>
      rw [otherScanned] at joined
      simp only [parseProgram, joined, otherScanned]
      rfl
  | ok otherTokens =>
      rw [otherScanned] at joined
      have apart : Parse.Separate (.statements program) tokens
          (otherTokens.map (Located.move (· + (1 + source.toList.count '\n')))) := by
        intro dangles begins
        exact separate ⟨tokens, otherTokens, program, scanned, otherScanned, dangles,
          Parse.begins_map_move.mp begins⟩
      rw [parseProgram_of_tokens joined, parseProgram_of_tokens otherScanned,
        ← Parse.checkedStatements_move]
      exact Parse.checkedStatements_append derivation shallow apart

/-- An accepted source, a line end and a second source make the program of the first and that of the
second one behind it, further down; and if the second has an error, that is the error. This holds
unless the second source begins with the `else` of a branch at the end of the first. -/
theorem parseProgram_joined {source other : String} {program : List Statement}
    (accepted : parseProgram source = .ok program) (separate : ¬ Continues source other) :
    (∀ otherProgram, parseProgram other = .ok otherProgram →
      parseProgram (source ++ "\n" ++ other) =
        .ok (program ++
          otherProgram.map (Statement.move (· + (1 + source.toList.count '\n'))))) ∧
    ∀ error, parseProgram other = .error error →
      parseProgram (source ++ "\n" ++ other) =
        .error (error.move (· + (1 + source.toList.count '\n'))) := by
  rw [parseProgram_append_line accepted separate]
  constructor
  · intro otherProgram found
    rw [found]
    rfl
  · intro error found
    rw [found]
    rfl

theorem parseProgram_joined_truncated :
    parseProgram "if (a) \x7b\x7d // done" = .ok [.branch (.reference "a" 1) [] [] 1] ∧
      ¬ Continues "if (a) \x7b\x7d // done" "print\n1" ∧
      parseProgram ("if (a) \x7b\x7d // done" ++ "\n" ++ "print\n1") =
        .error { line := 2, fault := .endOfInput } := by
  have scanned : tokenize "if (a) \x7b\x7d // done" =
      .ok [⟨.keyword .ifWord, 1⟩, ⟨.openParen, 1⟩, ⟨.identifier "a", 1⟩, ⟨.closeParen, 1⟩,
        ⟨.openBrace, 1⟩, ⟨.closeBrace, 1⟩] := by decide +kernel
  have otherScanned : tokenize "print\n1" = .ok [⟨.keyword .printWord, 1⟩, ⟨.number 1, 2⟩] := by
    decide +kernel
  have accepted : parseProgram "if (a) \x7b\x7d // done" =
      .ok [.branch (.reference "a" 1) [] [] 1] :=
    parseProgram_steps.mpr ⟨_, scanned, rfl, rfl⟩
  have separate : ¬ Continues "if (a) \x7b\x7d // done" "print\n1" := by
    rintro ⟨_, otherTokens, _, _, found, _, begins⟩
    obtain rfl := Except.ok.inj (otherScanned.symm.trans found)
    simp at begins
  refine ⟨accepted, separate, ?_⟩
  have failed : parseProgram "print\n1" = .error { line := 1, fault := .endOfInput } :=
    parseProgram_of_tokens otherScanned
  exact (parseProgram_joined accepted separate).2 _ failed

/-- Without the exception the statement fails: the second source alone is in error, and behind the
first one it is not. -/
theorem parseProgram_joined_else :
    ¬ ∀ (source other : String) (program : List Statement), parseProgram source = .ok program →
      (∀ otherProgram, parseProgram other = .ok otherProgram →
        parseProgram (source ++ "\n" ++ other) =
          .ok (program ++
            otherProgram.map (Statement.move (· + (1 + source.toList.count '\n'))))) ∧
      ∀ error, parseProgram other = .error error →
        parseProgram (source ++ "\n" ++ other) =
          .error (error.move (· + (1 + source.toList.count '\n'))) := by
  intro always
  have scanned : tokenize "if (true) \x7b\x7d" =
      .ok [⟨.keyword .ifWord, 1⟩, ⟨.openParen, 1⟩, ⟨.boolean true, 1⟩, ⟨.closeParen, 1⟩,
        ⟨.openBrace, 1⟩, ⟨.closeBrace, 1⟩] := by decide +kernel
  have otherScanned : tokenize "else \x7b\x7d" =
      .ok [⟨.keyword .elseWord, 1⟩, ⟨.openBrace, 1⟩, ⟨.closeBrace, 1⟩] := by decide +kernel
  have joinedScanned : tokenize ("if (true) \x7b\x7d" ++ "\n" ++ "else \x7b\x7d") =
      .ok [⟨.keyword .ifWord, 1⟩, ⟨.openParen, 1⟩, ⟨.boolean true, 1⟩, ⟨.closeParen, 1⟩,
        ⟨.openBrace, 1⟩, ⟨.closeBrace, 1⟩, ⟨.keyword .elseWord, 2⟩, ⟨.openBrace, 2⟩,
        ⟨.closeBrace, 2⟩] := by decide +kernel
  have accepted : parseProgram "if (true) \x7b\x7d" =
      .ok [.branch (.literal (.boolean true) 1) [] [] 1] :=
    parseProgram_steps.mpr ⟨_, scanned, rfl, rfl⟩
  have failed : parseProgram "else \x7b\x7d" =
      .error { line := 1, fault := .unexpected (.statement (.keyword .elseWord)) } :=
    parseProgram_of_tokens otherScanned
  have joined : parseProgram ("if (true) \x7b\x7d" ++ "\n" ++ "else \x7b\x7d") =
      .ok [.branch (.literal (.boolean true) 1) [] [] 1] :=
    parseProgram_steps.mpr ⟨_, joinedScanned, rfl, rfl⟩
  have impossible := (always _ _ _ accepted).2 _ failed
  rw [joined] at impossible
  cases impossible

end WhileLang
