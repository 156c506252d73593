import WhileLang.Proofs.BlockComment
import WhileLang.Proofs.Grammar

/-!
A line end separates lexemes. Of all lexemes only block comments go on behind a line end, so text
that is put behind one changes nothing in front of it, except that it may close a comment. There a
slash and a star were two operators before, which stand side by side in no program.
-/

namespace WhileLang

/-- No operator stands right behind another one. `behind` tells whether one stands right in front of
the tokens. -/
def Apart : (behind : Bool) → List Located → Prop
  | _, [] => True
  | behind, found :: rest =>
      ¬ (behind = true ∧ found.token.operator?.isSome = true) ∧
        Apart found.token.operator?.isSome rest

namespace Grammar

theorem Ranked.apart_iff {rank depth : Nat} {front : List Located} {node : Expression}
    (derivation : Ranked rank depth front node) (behind : Bool) (rest : List Located) :
    Apart behind (front ++ rest) ↔ Apart false rest := by
  induction derivation generalizing behind rest with
  | number | boolean | reference => simp [Apart, Token.operator?]
  | group _ ih => simp [Apart, Token.operator?, ih]
  | operand _ ih => exact ih behind rest
  | join _ _ _ leftIh rightIh => simp [Apart, Token.operator?, leftIh, rightIh]

theorem Derives.apart_iff {phrase : Phrase} {depth : Nat} {front : List Located}
    (derivation : Derives phrase depth front) (rest : List Located) :
    Apart false (front ++ rest) ↔ Apart false rest := by
  induction derivation generalizing rest with
  | declare valueDerived | assign valueDerived | print valueDerived =>
      simp [Apart, Token.operator?, valueDerived.apart_iff]
  | branch testDerived _ _ trueIh falseIh =>
      simp [Apart, Token.operator?, testDerived.apart_iff, trueIh, falseIh]
  | loop testDerived _ bodyIh => simp [Apart, Token.operator?, testDerived.apart_iff, bodyIh]
  | nil | withoutElse => rfl
  | cons _ _ firstIh othersIh => rw [List.append_assoc, firstIh, othersIh]
  | block _ ih => simp [Apart, Token.operator?, ih]
  | elseBlock _ ih | elseIf _ ih => simp [Apart, Token.operator?, ih]

theorem Ranked.apart {rank depth : Nat} {tokens : List Located} {node : Expression}
    (derivation : Ranked rank depth tokens node) : Apart false tokens := by
  have whole := derivation.apart_iff false []
  rw [List.append_nil] at whole
  exact whole.mpr trivial

theorem Derives.apart {phrase : Phrase} {depth : Nat} {tokens : List Located}
    (derivation : Derives phrase depth tokens) : Apart false tokens := by
  have whole := derivation.apart_iff []
  rw [List.append_nil] at whole
  exact whole.mpr trivial

end Grammar

namespace Lexicon

open Pattern

theorem words_star : ∀ entry ∈ words, entry.1.toList.head? = some '*' →
    entry = ("*", .operator .multiply) := by decide +kernel

theorem Spells.of_lineEnd {text : List Char} {token? : Option Token}
    (spells : Spells text token?) (inside : '\n' ∈ text) :
    text = ['\n'] ∨ Matches blockComment text := by
  cases spells with
  | word isWord => exact absurd inside (words_lineEnd _ isWord)
  | numeral isNumeral matched =>
      have mentioned := matched.mentions inside
      simp only [List.mem_cons, List.not_mem_nil, or_false] at isNumeral
      rcases isNumeral with rfl | rfl <;> exact absurd mentioned (by decide)
  | name matched _ => exact absurd (matched.mentions inside) (by decide)
  | passed isPassed matched =>
      have mentioned := matched.mentions inside
      simp only [List.mem_cons, List.not_mem_nil, or_false] at isPassed
      rcases isPassed with rfl | rfl | rfl | rfl
      · exact absurd mentioned (by decide)
      · exact Or.inr matched
      · exact Or.inl (matches_char_iff.mp matched)
      · exact absurd mentioned (by decide)

theorem Spells.star {rest : List Char} {token? : Option Token}
    (spells : Spells ('*' :: rest) token?) :
    rest = [] ∧ token? = some (.operator .multiply) := by
  obtain ⟨spelling, token, isWord, isText, rfl⟩ :=
    spells.word_of_head (by decide) (by decide) (by decide)
  have isStar := words_star _ isWord (by rw [isText]; rfl)
  obtain ⟨rfl, rfl⟩ := Prod.mk.inj isStar
  exact ⟨(List.cons.inj isText).2.symm, rfl⟩

theorem blockComment_unique {front other : List Char} (matched : Matches blockComment front)
    (otherMatched : Matches blockComment other) (isFront : front <+: other) : front = other := by
  obtain ⟨inside, rfl, filled⟩ := matches_blockComment_iff.mp matched
  obtain ⟨otherInside, rfl, otherFilled⟩ := matches_blockComment_iff.mp otherMatched
  obtain ⟨back, split⟩ := isFront
  have same : inside ++ '*' :: '/' :: back = otherInside ++ '*' :: '/' :: [] := by
    simpa using split
  rw [filled.unique otherFilled same]

/-- A lexeme that was the longest stays so when a line is put behind the text, unless it is the
slash of a comment that has not been closed. -/
theorem Longest.append_line {lexeme rest : List Char} (longest : Longest lexeme rest)
    (more : List Char) :
    Longest lexeme (rest ++ '\n' :: more) ∨ lexeme = ['/'] ∧ ∃ others, rest = '*' :: others := by
  by_cases opens : lexeme = ['/'] ∧ ∃ others, rest = '*' :: others
  · exact Or.inr opens
  · refine Or.inl ⟨longest.nonempty, longest.isLexeme, ?_⟩
    intro front token? isFront spells
    rw [← List.append_assoc] at isFront
    by_cases within : front.length ≤ (lexeme ++ rest).length
    · exact longest.atMost front token?
        (List.prefix_of_prefix_length_le isFront (List.prefix_append _ _) within) spells
    · -- The lexeme reaches over the line end, so it is a comment, and the text begins like one.
      have reaches : lexeme ++ rest ++ ['\n'] <+: front := by
        have isStart : lexeme ++ rest ++ ['\n'] <+: lexeme ++ rest ++ '\n' :: more := by simp
        refine List.prefix_of_prefix_length_le isStart isFront ?_
        simp only [List.length_append, List.length_cons, List.length_nil] at within ⊢
        omega
      obtain ⟨behind, rfl⟩ := reaches
      obtain ⟨c, tail, rfl⟩ := List.exists_cons_of_ne_nil longest.nonempty
      simp only [List.cons_append, List.append_assoc, List.nil_append] at spells ⊢
      have comment : Matches blockComment (c :: (tail ++ (rest ++ '\n' :: behind))) :=
        (spells.of_lineEnd (by simp)).resolve_left (by simp)
      obtain ⟨inside, isComment, _⟩ := matches_blockComment_iff.mp comment
      obtain ⟨lexemeToken?, lexemeSpells⟩ := longest.isLexeme
      have isFront : c :: tail <+: '/' :: '*' :: (inside ++ ['*', '/']) :=
        ⟨rest ++ '\n' :: behind, isComment⟩
      rcases lexemeSpells.slash_star isFront with ⟨isSlash, _⟩ | ⟨lexemeComment, _⟩
      · refine absurd ⟨isSlash, ?_⟩ opens
        obtain ⟨rfl, rfl⟩ := List.cons.inj isSlash
        cases rest with
        | nil => simp at isComment
        | cons d others =>
            simp only [List.nil_append, List.cons_append, List.cons.injEq] at isComment
            exact ⟨others, by rw [isComment.2.1]⟩
      · have same := blockComment_unique lexemeComment comment ⟨rest ++ '\n' :: behind, rfl⟩
        exact Nat.le_of_eq (congrArg List.length same.symm)

theorem spells_lineEnd : Spells ['\n'] none :=
  Spells.passed (by simp) (matches_char_iff.mpr rfl)

theorem longest_lineEnd (more : List Char) : Longest ['\n'] more := by
  refine ⟨by simp, ⟨none, spells_lineEnd⟩, ?_⟩
  intro front token? isFront spells
  cases front with
  | nil => simp
  | cons c rest =>
      obtain rfl : c = '\n' := (List.cons_prefix_cons.mp isFront).1
      rcases spells.of_lineEnd (by simp) with single | comment
      · exact Nat.le_of_eq (congrArg List.length single)
      · obtain ⟨inside, isComment, _⟩ := matches_blockComment_iff.mp comment
        exact absurd (List.cons.inj isComment).1 (by decide)

theorem spells_star : Spells ['*'] (some (.operator .multiply)) := by
  have isWord : ("*", Token.operator .multiply) ∈ words := by decide
  exact Spells.word isWord

theorem Munches.star {rest stop : List Char} {lexemes : List (List Char)}
    (munches : Munches ('*' :: rest) lexemes stop) : ∃ others, lexemes = ['*'] :: others := by
  generalize isText : '*' :: rest = text at munches
  cases munches with
  | stuck stuck =>
      have empty := stuck ['*'] _ ⟨rest, isText⟩ spells_star
      simp at empty
  | @next lexeme _ others _ longest _ =>
      obtain ⟨c, tail, rfl⟩ := List.exists_cons_of_ne_nil longest.nonempty
      obtain ⟨rfl, _⟩ := List.cons.inj isText
      obtain ⟨token?, spells⟩ := longest.isLexeme
      obtain ⟨rfl, _⟩ := spells.star
      exact ⟨others, rfl⟩

theorem Stand.of_spells {line : Nat} {lexeme : List Char} {lexemes : List (List Char)}
    {token : Token} {tokens : List Located} (spells : Spells lexeme (some token))
    (stand : Stand line (lexeme :: lexemes) tokens) :
    ∃ next others, tokens = ⟨token, line⟩ :: others ∧ Stand next lexemes others := by
  cases stand with
  | passed otherSpells _ =>
      have impossible := spells.unique otherSpells
      simp at impossible
  | token otherSpells stand =>
      obtain rfl := Option.some.inj (spells.unique otherSpells)
      exact ⟨_, _, rfl, stand⟩

theorem Stand.not_apart_of_slash {rest stop : List Char} {lexemes : List (List Char)} {line : Nat}
    {tokens : List Located} {behind : Bool} (munches : Munches ('*' :: rest) lexemes stop)
    (stand : Stand line (['/'] :: lexemes) tokens) : ¬ Apart behind tokens := by
  obtain ⟨others, rfl⟩ := munches.star
  obtain ⟨_, _, rfl, starStand⟩ := stand.of_spells spells_slash
  obtain ⟨_, _, rfl, _⟩ := starStand.of_spells spells_star
  simp [Apart, Token.operator?]

theorem scan_append_line {text : List Char} {lexemes : List (List Char)} {line : Nat}
    {tokens : List Located} {behind : Bool} (munches : Munches text lexemes [])
    (stand : Stand line lexemes tokens) (apart : Apart behind tokens) (more : List Char) :
    scan line 0 (text ++ '\n' :: more) =
      (scan (line + text.count '\n' + 1) 0 more).map (tokens ++ ·) := by
  generalize isStop : ([] : List Char) = stop at munches
  induction munches generalizing line tokens behind with
  | stuck _ =>
      subst isStop
      cases stand
      have isText : [] ++ '\n' :: more = ['\n'] ++ more := rfl
      rw [isText, scan_next (longest_lineEnd more) spells_lineEnd]
      simp only [precede, List.nil_append, List.count_nil, List.count_singleton_self]
      cases scan (line + 1) 0 more <;> rfl
  | @next lexeme rest lexemes stop longest munches ih =>
      rcases longest.append_line more with longer | ⟨rfl, others, rfl⟩
      · have lines : line + (lexeme ++ rest).count '\n' + 1 =
            line + lexeme.count '\n' + rest.count '\n' + 1 := by
          rw [List.count_append]
          omega
        rw [List.append_assoc, lines]
        cases stand with
        | passed spells stand =>
            rw [scan_next longer spells, ih stand apart isStop]
            rfl
        | token spells stand =>
            rw [scan_next longer spells, ih stand apart.2 isStop]
            cases scan (line + lexeme.count '\n' + rest.count '\n' + 1) 0 more <;> rfl
      · exact absurd apart (stand.not_apart_of_slash munches)

theorem exists_lexemes {source : String} {tokens : List Located}
    (scanned : tokenize source = .ok tokens) :
    ∃ lexemes, Munches source.toList lexemes [] ∧ Stand 1 lexemes tokens := by
  obtain ⟨lexemes, stop, munches⟩ := exists_munches source.toList
  obtain ⟨others, stand⟩ := munches.exists_stand 1
  have outcome := (scan_of_munches munches stand).symm.trans scanned
  cases stop with
  | nil =>
      obtain rfl := Except.ok.inj outcome
      exact ⟨lexemes, munches, stand⟩
  | cons c rest => cases outcome

theorem tokenize_append_line {source : String} {tokens : List Located}
    (scanned : tokenize source = .ok tokens) (apart : Apart false tokens) (other : String) :
    tokenize (source ++ "\n" ++ other) =
      (later (1 + source.toList.count '\n') (tokenize other)).map (tokens ++ ·) := by
  obtain ⟨lexemes, munches, stand⟩ := exists_lexemes scanned
  have isText : (source ++ "\n" ++ other).toList = source.toList ++ '\n' :: other.toList := by simp
  have lines : 1 + source.toList.count '\n' + 1 = 1 + (1 + source.toList.count '\n') := by omega
  rw [tokenize, isText, scan_append_line munches stand apart, lines, scan_later]
  rfl

end Lexicon

end WhileLang
