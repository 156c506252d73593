import WhileLang.Proofs.Acceptance
import WhileLang.Proofs.Execution.Causes
import WhileLang.Proofs.Execution.Locality
import WhileLang.Proofs.Parse.Category
import WhileLang.Proofs.TokenLines

/-!
Names come from the source and from nowhere else. The scanner makes a name of no other text than one
that is spelled like a name and is not reserved. The parser puts into a program only names that it
has found among the tokens, and a run binds, and misses, only names that the program mentions. So a
name in the final scope, or in the error of a run, is spelled like a name and stands in the source.
-/

namespace WhileLang

open Lexicon

/-- A letter or an underscore, then letters, digits and underscores, and no reserved word. -/
structure ValidName (name : String) : Prop where
  spelled : ∃ first rest, name.toList = first :: rest ∧
    (first.isAlpha = true ∨ first = '_') ∧ ∀ c ∈ rest, c.isAlphanum = true ∨ c = '_'
  notReserved : ∀ token : Token, token.reserved? ≠ some name

def Written (source name : String) : Prop :=
  ∃ tokens line, tokenize source = .ok tokens ∧ ⟨.identifier name, line⟩ ∈ tokens

namespace Lexicon

theorem words_no_identifier : ∀ entry ∈ words, ∀ name, entry.2 ≠ .identifier name := by
  simp [words]

theorem mem_words_of_reserved {token : Token} {text : String}
    (reserved : token.reserved? = some text) : (text, token) ∈ words := by
  cases token with
  | keyword word =>
      obtain rfl := Option.some.inj reserved
      cases word <;> decide
  | boolean value =>
      cases value with
      | true | false =>
          obtain rfl := Option.some.inj reserved
          decide
  | _ => cases reserved

theorem Spells.validName {text : List Char} {name : String}
    (spells : Spells text (some (.identifier name))) : ValidName name := by
  generalize isToken : some (Token.identifier name) = token? at spells
  cases spells with
  | word isWord => exact absurd (Option.some.inj isToken).symm (words_no_identifier _ isWord name)
  | numeral _ _ => cases isToken
  | name matched notWord =>
      cases isToken
      constructor
      · obtain ⟨front, rest, rfl, starts, follows⟩ := Pattern.matches_followedBy_iff.mp matched
        obtain ⟨first, isFirst, rfl⟩ := Pattern.matches_one_iff.mp starts
        refine ⟨first, rest, String.toList_ofList, ?_, ?_⟩
        · simpa [isNameStart] using isFirst
        · simpa [isNamePart] using Pattern.matches_many_one_iff.mp follows
      · intro token reserved
        exact notWord token (mem_words_of_reserved reserved)
  | passed => cases isToken

theorem exists_spelling {source : String} {tokens : List Located}
    (scanned : tokenize source = .ok tokens) {found : Located} (isMember : found ∈ tokens) :
    ∃ lexeme, Spells lexeme (some found.token) := by
  obtain ⟨lexemes, stop, munches⟩ := exists_munches source.toList
  obtain ⟨places, front, lays⟩ := munches.exists_lays []
  obtain ⟨rfl, rfl⟩ := outcome_eq_ok_iff.mp ((scan_of_lays lays).symm.trans scanned)
  obtain ⟨place, isPlace, rfl⟩ := List.mem_map.mp isMember
  obtain ⟨lexeme, _, _, spells⟩ := lays.exists_lexeme isPlace
  exact ⟨lexeme, spells⟩

end Lexicon

theorem Written.validName {source name : String} (written : Written source name) :
    ValidName name := by
  obtain ⟨tokens, line, scanned, isMember⟩ := written
  obtain ⟨lexeme, spells⟩ := exists_spelling scanned isMember
  exact spells.validName

namespace Statement.Occurs

theorem cons_cases {statement first : Statement} {others : List Statement}
    (occurs : statement.Occurs (first :: others)) :
    statement.Occurs [first] ∨ statement.Occurs others := by
  cases occurs with
  | here isMember =>
      rcases List.mem_cons.mp isMember with rfl | isMember
      · exact .inl (.here List.mem_cons_self)
      · exact .inr (.here isMember)
  | body isMember inside =>
      rcases List.mem_cons.mp isMember with rfl | isMember
      · exact .inl (.body List.mem_cons_self inside)
      · exact .inr (.body isMember inside)
  | otherwise isMember inside =>
      rcases List.mem_cons.mp isMember with rfl | isMember
      · exact .inl (.otherwise List.mem_cons_self inside)
      · exact .inr (.otherwise isMember inside)

theorem singleton_cases {statement outer : Statement} (occurs : statement.Occurs [outer]) :
    statement = outer ∨ statement.Occurs outer.body ∨ statement.Occurs outer.otherwise := by
  cases occurs with
  | here isMember => exact .inl (List.mem_singleton.mp isMember)
  | body isMember inside =>
      obtain rfl := List.mem_singleton.mp isMember
      exact .inr (.inl inside)
  | otherwise isMember inside =>
      obtain rfl := List.mem_singleton.mp isMember
      exact .inr (.inr inside)

end Statement.Occurs

namespace Grammar

theorem Ranked.reference_mem {rank depth : Nat} {tokens : List Located} {node : Expression}
    (derivation : Ranked rank depth tokens node) {name : String} {line : Nat}
    (occurs : (Expression.reference name line).Occurs node) :
    ⟨.identifier name, line⟩ ∈ tokens := by
  induction derivation with
  | number | boolean => cases occurs
  | reference =>
      cases occurs
      exact List.mem_singleton_self _
  | group _ ih => simp [ih occurs]
  | operand _ ih => exact ih occurs
  | join _ _ _ leftIh rightIh =>
      cases occurs with
      | left occurs => simp [leftIh occurs]
      | right occurs => simp [rightIh occurs]

def Phrase.nodes : Phrase → List Statement
  | statement node => [node]
  | statements nodes | block nodes | alternative nodes => nodes

def Holds (tokens : List Located) (statement : Statement) : Prop :=
  ∃ depth front, Derives (.statement statement) depth front ∧ front ⊆ tokens

theorem Derives.holds {statement : Statement} {depth : Nat} {tokens : List Located}
    (derivation : Derives (.statement statement) depth tokens) : Holds tokens statement :=
  ⟨depth, tokens, derivation, List.Subset.refl tokens⟩

theorem Holds.mono {part tokens : List Located} {statement : Statement}
    (holds : Holds part statement) (within : part ⊆ tokens) : Holds tokens statement := by
  obtain ⟨depth, front, derivation, isPart⟩ := holds
  exact ⟨depth, front, derivation, List.Subset.trans isPart within⟩

theorem Derives.holds_of_occurs {phrase : Phrase} {depth : Nat} {tokens : List Located}
    (derivation : Derives phrase depth tokens) {statement : Statement}
    (occurs : statement.Occurs phrase.nodes) : Holds tokens statement := by
  induction derivation with
  | declare valueDerived =>
      obtain rfl := occurs.eq_of_simple rfl
      exact (Derives.declare valueDerived).holds
  | assign valueDerived =>
      obtain rfl := occurs.eq_of_simple rfl
      exact (Derives.assign valueDerived).holds
  | print valueDerived =>
      obtain rfl := occurs.eq_of_simple rfl
      exact (Derives.print valueDerived).holds
  | branch testDerived trueDerived falseDerived trueIh falseIh =>
      rcases occurs.singleton_cases with rfl | inTrue | inFalse
      · exact (Derives.branch testDerived trueDerived falseDerived).holds
      · exact (trueIh inTrue).mono fun _ isMember => by simp [isMember]
      · exact (falseIh inFalse).mono fun _ isMember => by simp [isMember]
  | loop testDerived bodyDerived bodyIh =>
      rcases occurs.singleton_cases with rfl | inBody | inNothing
      · exact (Derives.loop testDerived bodyDerived).holds
      · exact (bodyIh inBody).mono fun _ isMember => by simp [isMember]
      · exact absurd inNothing Statement.Occurs.not_nil
  | nil | withoutElse => exact absurd occurs Statement.Occurs.not_nil
  | cons _ _ firstIh othersIh =>
      rcases occurs.cons_cases with inFirst | inOthers
      · exact (firstIh inFirst).mono (List.subset_append_left _ _)
      · exact (othersIh inOthers).mono (List.subset_append_right _ _)
  | block _ ih | elseBlock _ ih | elseIf _ ih =>
      exact (ih occurs).mono fun _ isMember => by simp [isMember]

theorem Derives.exists_ranked {statement : Statement} {depth : Nat} {tokens : List Located}
    (derivation : Derives (.statement statement) depth tokens) :
    ∃ inner front, Ranked 6 inner front statement.expression ∧ front ⊆ tokens := by
  cases derivation with
  | declare ranked | assign ranked | branch ranked | loop ranked | print ranked =>
      exact ⟨_, _, ranked, fun _ isMember => by simp [isMember]⟩

theorem Program.identifier_mem {depth : Nat} {tokens : List Located} {program : List Statement}
    (derivation : Program depth tokens program) {name : String}
    (mentions : Mentions program name) : ∃ line, ⟨.identifier name, line⟩ ∈ tokens := by
  rcases mentions with ⟨line, statement, occurs, inside⟩ | ⟨value, line, occurs⟩ |
    ⟨value, line, occurs⟩
  · obtain ⟨_, front, derived, within⟩ := Derives.holds_of_occurs derivation occurs
    obtain ⟨_, part, ranked, isPart⟩ := derived.exists_ranked
    exact ⟨line, within (isPart (ranked.reference_mem inside))⟩
  · obtain ⟨_, front, derived, within⟩ := Derives.holds_of_occurs derivation occurs
    cases derived with
    | declare => exact ⟨_, within (.tail _ List.mem_cons_self)⟩
  · obtain ⟨_, front, derived, within⟩ := Derives.holds_of_occurs derivation occurs
    cases derived with
    | assign => exact ⟨_, within List.mem_cons_self⟩

end Grammar

theorem parseProgram_written {source : String} {program : List Statement}
    (parsed : parseProgram source = .ok program) {name : String}
    (mentions : Mentions program name) : Written source name := by
  obtain ⟨tokens, depth, scanned, derivation, _⟩ := exists_derivation parsed
  obtain ⟨line, isMember⟩ := derivation.identifier_mem mentions
  exact ⟨tokens, line, scanned, isMember⟩

section

variable {program : List Statement} {fuel : Nat} {console : Console}

theorem runProgram_mentions_bound {final : Machine}
    (ended : (runProgram fuel program console).machine? = some final) {name : String}
    (bound : final.scope.contains name = true) : Mentions program name := by
  have sameScope := runProgram_scope fuel program console
  rw [ended] at sameScope
  obtain ⟨last, lastEnded, isScope⟩ := Option.map_eq_some_iff.mp sameScope.symm
  have framed := (executeBlock_accounted lastEnded).1.framed
  rw [isScope] at framed
  rcases framed.fresh name bound with before | declared
  · cases before
  · exact .inr (.inl declared)

theorem runProgram_mentions_unknown {line : Nat} {name : String}
    (failed : (runProgram fuel program console).error? =
      some { line, fault := .unknownVariable name }) : Mentions program name := by
  rw [runProgram_error?] at failed
  obtain ⟨final, ended⟩ := Outcome.exists_machine failed
  have fails := (executeBlock_accounted ended).2 _ failed
  cases fails.cause (executeBlock_plain ended) with
  | reference inside => exact .inl ⟨line, inside⟩
  | assignment occurs => exact .inr (.inr ⟨_, line, occurs⟩)

end

/-- Every name among the tokens of a source is valid. A name that is bound where a run of the source
ends, or that the run fails to find, is one of them. -/
theorem runSource_names_written (source : String) :
    (∀ tokens, tokenize source = .ok tokens →
      ∀ name line, ⟨.identifier name, line⟩ ∈ tokens → ValidName name) ∧
    ∀ fuel console,
      (∀ final, (runSource fuel source console).machine? = some final →
        ∀ name, final.scope.contains name = true → ValidName name ∧ Written source name) ∧
      ∀ line name, (runSource fuel source console).error? =
          some { line, fault := .unknownVariable name } →
        ValidName name ∧ Written source name := by
  refine ⟨?_, fun fuel console => ?_⟩
  · intro tokens scanned name line isMember
    exact Written.validName ⟨tokens, line, scanned, isMember⟩
  · rw [runSource]
    cases parsed : parseProgram source with
    | error error =>
        -- Nothing has run, so nothing is bound; and what keeps a text from being run is never a
        -- missing variable.
        constructor
        · rintro final ⟨⟩ name ⟨⟩
        · intro line name failed
          have category := parseProgram_onlyRejects source error parsed
          obtain rfl := Option.some.inj failed
          cases category
    | ok program =>
        constructor
        · intro final ended name bound
          have written := parseProgram_written parsed (runProgram_mentions_bound ended bound)
          exact ⟨written.validName, written⟩
        · intro line name failed
          have written := parseProgram_written parsed (runProgram_mentions_unknown failed)
          exact ⟨written.validName, written⟩

theorem runSource_names_written_near_keywords :
    (∃ final, (runSource 2 "let whilst = 1; let true_ = whilst;" {}).machine? = some final ∧
      final.scope.contains "whilst" = true ∧ final.scope.contains "true_" = true ∧
      ValidName "whilst" ∧ Written "let whilst = 1; let true_ = whilst;" "true_") ∧
    (runSource 2 "print printer;" {}).error? =
        some { line := 1, fault := .unknownVariable "printer" } ∧
      ValidName "printer" ∧ Written "print printer;" "printer" := by
  have bound : (runSource 2 "let whilst = 1; let true_ = whilst;" {}).machine?.map
      (fun final => (final.scope.contains "whilst", final.scope.contains "true_")) =
        some (true, true) := by decide +kernel
  have missing : (runSource 2 "print printer;" {}).error? =
      some { line := 1, fault := .unknownVariable "printer" } := by decide +kernel
  obtain ⟨final, ended, isBound⟩ := Option.map_eq_some_iff.mp bound
  obtain ⟨hasWhilst, hasTrue⟩ := Prod.mk.inj isBound
  have names := ((runSource_names_written _).2 _ _).1 final ended
  exact ⟨⟨final, ended, hasWhilst, hasTrue, (names _ hasWhilst).1, (names _ hasTrue).2⟩, missing,
    ((runSource_names_written _).2 _ _).2 _ _ missing⟩

end WhileLang
