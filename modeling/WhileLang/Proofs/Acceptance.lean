import Mathlib.Data.List.Basic
import WhileLang.Program
import WhileLang.Proofs.Nesting
import WhileLang.Proofs.Parse.Completeness

/-!
Which source texts are programs, and which tree each of them has.
-/

namespace WhileLang

open Grammar

theorem Parse.statements_eq_ok_iff {tokens : List Located} {program : List Statement} :
    statements tokens = .ok program ↔ ∃ depth, Program depth tokens program := by
  constructor
  · exact statements_derives
  · rintro ⟨depth, derivation⟩
    exact statements_of_derives derivation

theorem Grammar.Program.unique {tokens : List Located} {depth otherDepth : Nat}
    {program otherProgram : List Statement} (derivation : Program depth tokens program)
    (otherDerivation : Program otherDepth tokens otherProgram) :
    depth = otherDepth ∧ program = otherProgram := by
  constructor
  · rw [← Nesting.peak_of_program derivation, Nesting.peak_of_program otherDerivation]
  · have found := Parse.statements_of_derives derivation
    rw [Parse.statements_of_derives otherDerivation] at found
    exact (Except.ok.inj found).symm

theorem parseProgram_steps {source : String} {program : List Statement} :
    parseProgram source = .ok program ↔ ∃ tokens, tokenize source = .ok tokens ∧
      Nesting.check tokens = .ok () ∧ Parse.statements tokens = .ok program := by
  simp only [parseProgram, Parse.bind_eq_ok_iff]
  constructor
  · rintro ⟨tokens, scanned, _, checked, parsed⟩
    exact ⟨tokens, scanned, checked, parsed⟩
  · rintro ⟨tokens, scanned, checked, parsed⟩
    exact ⟨tokens, scanned, (), checked, parsed⟩

theorem exists_derivation {source : String} {program : List Statement}
    (accepted : parseProgram source = .ok program) :
    ∃ tokens depth, tokenize source = .ok tokens ∧ Program depth tokens program ∧
      depth ≤ Nesting.limit := by
  obtain ⟨tokens, scanned, checked, parsed⟩ := parseProgram_steps.mp accepted
  obtain ⟨depth, derivation⟩ := Parse.statements_eq_ok_iff.mp parsed
  exact ⟨tokens, depth, scanned, derivation, (Nesting.check_eq_ok_iff derivation).mp checked⟩

theorem parseProgram_of_derivation {source : String} {tokens : List Located} {depth : Nat}
    {program : List Statement} (scanned : tokenize source = .ok tokens)
    (derivation : Program depth tokens program) (shallow : depth ≤ Nesting.limit) :
    parseProgram source = .ok program :=
  parseProgram_steps.mpr ⟨tokens, scanned, (Nesting.check_eq_ok_iff derivation).mpr shallow,
    Parse.statements_eq_ok_iff.mpr ⟨depth, derivation⟩⟩

/-- A source is accepted with a program exactly if the grammar derives the program from all of its
tokens and brackets nest at most 256 deep there; and no tokens have two derivations. -/
theorem parseProgram_eq_ok_iff_derives :
    (∀ source program, parseProgram source = .ok program ↔
      ∃ tokens depth, tokenize source = .ok tokens ∧ Program depth tokens program ∧
        depth ≤ 256) ∧
    (∀ tokens depth otherDepth program otherProgram, Program depth tokens program →
      Program otherDepth tokens otherProgram →
        depth = otherDepth ∧ program = otherProgram) := by
  refine ⟨fun source program => ⟨exists_derivation, ?_⟩, fun _ _ _ _ _ => Program.unique⟩
  rintro ⟨tokens, depth, scanned, derivation, shallow⟩
  exact parseProgram_of_derivation scanned derivation shallow

theorem parseProgram_chained_branch :
    ∃ tokens depth, tokenize "if (a) \x7b\x7d else if (b) \x7b\x7d" = .ok tokens ∧
      Program depth tokens
        [.branch (.reference "a" 1) [] [.branch (.reference "b" 1) [] [] 1] 1] ∧
      depth ≤ 256 ∧
      ∀ otherDepth other, Program otherDepth tokens other → depth = otherDepth ∧
        [.branch (.reference "a" 1) [] [.branch (.reference "b" 1) [] [] 1] 1] = other := by
  have scanned : tokenize "if (a) \x7b\x7d else if (b) \x7b\x7d" =
      .ok [⟨.keyword .ifWord, 1⟩, ⟨.openParen, 1⟩, ⟨.identifier "a", 1⟩, ⟨.closeParen, 1⟩,
        ⟨.openBrace, 1⟩, ⟨.closeBrace, 1⟩, ⟨.keyword .elseWord, 1⟩, ⟨.keyword .ifWord, 1⟩,
        ⟨.openParen, 1⟩, ⟨.identifier "b", 1⟩, ⟨.closeParen, 1⟩, ⟨.openBrace, 1⟩,
        ⟨.closeBrace, 1⟩] := by decide +kernel
  have accepted : parseProgram "if (a) \x7b\x7d else if (b) \x7b\x7d" =
      .ok [.branch (.reference "a" 1) [] [.branch (.reference "b" 1) [] [] 1] 1] :=
    parseProgram_steps.mpr ⟨_, scanned, rfl, rfl⟩
  obtain ⟨tokens, depth, scanned, derivation, shallow⟩ :=
    (parseProgram_eq_ok_iff_derives.1 _ _).mp accepted
  refine ⟨tokens, depth, scanned, derivation, shallow, ?_⟩
  intro otherDepth other otherDerivation
  exact parseProgram_eq_ok_iff_derives.2 _ _ _ _ _ derivation otherDerivation

end WhileLang
