import WhileLang.Proofs.Decimal.Reading

/-!
Which texts are lexemes, and what each of them stands for. Four kinds are told apart: words with a
fixed spelling, numerals, names, and text that is passed over. A name is never spelled like a word;
no other text is of two kinds.
-/

namespace WhileLang.Lexicon

open Pattern

def words : List (String × Token) :=
  [("let", .keyword .letWord), ("if", .keyword .ifWord), ("else", .keyword .elseWord),
    ("while", .keyword .whileWord), ("print", .keyword .printWord),
    ("true", .boolean true), ("false", .boolean false),
    ("+", .operator .add), ("-", .operator .subtract), ("*", .operator .multiply),
    ("/", .operator .divide), ("&&", .operator .and), ("||", .operator .or),
    (">", .operator .greater), ("<", .operator .less), ("===", .operator .strictEqual),
    ("=", .equals), (";", .semicolon), ("(", .openParen), (")", .closeParen),
    ("\x7b", .openBrace), ("\x7d", .closeBrace)]

/-- `Spells text token?`: the text is a lexeme and stands for the token, or for none if it is passed
over. -/
inductive Spells : List Char → Option Token → Prop
  | word {spelling token} : (spelling, token) ∈ words → Spells spelling.toList (some token)
  | numeral {text pattern x number} : pattern ∈ [wholeNumeral, bareFraction] →
      Matches pattern text → Decimal.Denotes text x → Double.RoundsTo x number →
      Spells text (some (.number number))
  | name {text} : Matches name text → (∀ token, (String.ofList text, token) ∉ words) →
      Spells text (some (.identifier (String.ofList text)))
  | passed {text pattern} : pattern ∈ [lineComment, blockComment, .char '\n', blanks] →
      Matches pattern text → Spells text none

theorem spells_numeral {text : List Char} {pattern : Pattern}
    (isNumeral : pattern ∈ [wholeNumeral, bareFraction]) (matched : Matches pattern text) :
    Spells text (some (.number (Decimal.ofNumeral text).toFloat)) := by
  obtain ⟨x, denotes⟩ := Decimal.exists_denotes isNumeral matched
  exact .numeral isNumeral matched denotes (denotes.roundsTo_iff.mpr rfl)

theorem rules_eq : rules = words.map (fun entry => word entry.1 entry.2) ++
    [{ pattern := wholeNumeral, token? := numberOf },
      { pattern := bareFraction, token? := numberOf },
      { pattern := name, token? := fun text => some (.identifier (String.ofList text)) },
      passedOver lineComment, { passedOver blockComment with lineEnds := (·.count '\n') },
      { passedOver (.char '\n') with lineEnds := fun _ => 1 }, passedOver blanks] := rfl

theorem words_unique : ∀ entry ∈ words, ∀ other ∈ words, entry.1 = other.1 →
    entry.2 = other.2 := by decide +kernel

theorem words_apart : ∀ entry ∈ words,
    (¬ Matches wholeNumeral entry.1.toList ∧ ¬ Matches bareFraction entry.1.toList) ∧
    (¬ Matches lineComment entry.1.toList ∧ ¬ Matches blockComment entry.1.toList ∧
      ¬ Matches (.char '\n') entry.1.toList ∧ ¬ Matches blanks entry.1.toList) := by
  decide +kernel

theorem digits_head {text : List Char} (matched : Matches digits text) :
    ∃ c rest, text = c :: rest ∧ c.isDigit = true := by
  obtain ⟨nonempty, allDigits⟩ := matches_oneOrMore_one_iff.mp matched
  obtain ⟨c, rest, rfl⟩ := List.exists_cons_of_ne_nil nonempty
  exact ⟨c, rest, rfl, allDigits c (by simp)⟩

theorem numeral_head {pattern : Pattern} {text : List Char}
    (isNumeral : pattern ∈ [wholeNumeral, bareFraction]) (matched : Matches pattern text) :
    ∃ c rest, text = c :: rest ∧ (c.isDigit = true ∨ c = '.') := by
  simp only [List.mem_cons, List.not_mem_nil, or_false] at isNumeral
  rcases isNumeral with rfl | rfl
  · obtain ⟨front, back, rfl, frontMatched, _⟩ := matches_followedBy_iff.mp matched
    obtain ⟨c, rest, rfl, isDigit⟩ := digits_head frontMatched
    exact ⟨c, rest ++ back, rfl, Or.inl isDigit⟩
  · obtain ⟨front, back, rfl, frontMatched, _⟩ := matches_followedBy_iff.mp matched
    obtain ⟨point, rest, rfl, pointMatched, _⟩ := matches_followedBy_iff.mp frontMatched
    obtain rfl := matches_char_iff.mp pointMatched
    exact ⟨'.', rest ++ back, rfl, Or.inr rfl⟩

theorem name_head {text : List Char} (matched : Matches name text) :
    ∃ c rest, text = c :: rest ∧ isNameStart c = true := by
  obtain ⟨front, back, rfl, frontMatched, _⟩ := matches_followedBy_iff.mp matched
  obtain ⟨c, accepted, rfl⟩ := matches_one_iff.mp frontMatched
  exact ⟨c, back, rfl, accepted⟩

theorem passed_head {pattern : Pattern} {text : List Char}
    (isPassed : pattern ∈ [lineComment, blockComment, .char '\n', blanks])
    (matched : Matches pattern text) :
    ∃ c rest, text = c :: rest ∧ (c = '/' ∨ c = '\n' ∨ isBlank c = true) := by
  simp only [List.mem_cons, List.not_mem_nil, or_false] at isPassed
  rcases isPassed with rfl | rfl | rfl | rfl
  · obtain ⟨front, back, rfl, frontMatched, _⟩ := matches_followedBy_iff.mp matched
    obtain rfl := matches_literal_iff.mp frontMatched
    exact ⟨'/', '/' :: back, rfl, Or.inl rfl⟩
  · obtain ⟨front, back, rfl, frontMatched, _⟩ := matches_followedBy_iff.mp matched
    obtain rfl := matches_literal_iff.mp frontMatched
    exact ⟨'/', '*' :: back, rfl, Or.inl rfl⟩
  · obtain rfl := matches_char_iff.mp matched
    exact ⟨'\n', [], rfl, Or.inr (Or.inl rfl)⟩
  · obtain ⟨nonempty, allBlank⟩ := matches_oneOrMore_one_iff.mp matched
    obtain ⟨c, rest, rfl⟩ := List.exists_cons_of_ne_nil nonempty
    exact ⟨c, rest, rfl, Or.inr (Or.inr (allBlank c (by simp)))⟩

theorem not_isNameStart_of_isDigit {c : Char} (isDigit : c.isDigit = true) :
    isNameStart c = false := by
  -- Digits stand before all letters and before the underscore.
  have below : c.toNat ≤ '9'.toNat := (Char.isDigit_iff_toNat.mp isDigit).2
  have notFrom {lowest : Char} (above : '9'.toNat < lowest.toNat) : ¬ lowest.val ≤ c.val := by
    intro reached
    have reachedNat : lowest.toNat ≤ c.toNat := UInt32.le_iff_toNat_le.mp reached
    omega
  have notUpper : c.isUpper = false :=
    decide_eq_false fun letter => notFrom (by decide) letter.1
  have notLower : c.isLower = false := by
    change (decide ('a'.val ≤ c.val) && _) = false
    rw [decide_eq_false (notFrom (by decide)), Bool.false_and]
  have notUnderscore : (c == '_') = false := by
    rw [beq_eq_false_iff_ne]
    rintro rfl
    exact absurd isDigit (by decide)
  change ((c.isUpper || c.isLower) || c == '_') = false
  rw [notUpper, notLower, notUnderscore]
  rfl

theorem not_isNameStart_of_numeral {c : Char} (starts : c.isDigit = true ∨ c = '.') :
    isNameStart c = false := by
  rcases starts with isDigit | rfl
  · exact not_isNameStart_of_isDigit isDigit
  · decide

theorem not_isNameStart_of_passed {c : Char}
    (starts : c = '/' ∨ c = '\n' ∨ isBlank c = true) : isNameStart c = false := by
  simp only [isBlank, Bool.or_eq_true, beq_iff_eq] at starts
  rcases starts with rfl | rfl | ((rfl | rfl) | rfl) | rfl <;> decide

theorem not_numeral_of_passed {c : Char}
    (starts : c = '/' ∨ c = '\n' ∨ isBlank c = true) : ¬ (c.isDigit = true ∨ c = '.') := by
  simp only [isBlank, Bool.or_eq_true, beq_iff_eq] at starts
  rcases starts with rfl | rfl | ((rfl | rfl) | rfl) | rfl <;> decide

theorem word_not_numeral {spelling : String} {token : Token} {pattern : Pattern}
    (isWord : (spelling, token) ∈ words) (isNumeral : pattern ∈ [wholeNumeral, bareFraction]) :
    ¬ Matches pattern spelling.toList := by
  have apart := words_apart _ isWord
  simp only [List.mem_cons, List.not_mem_nil, or_false] at isNumeral
  rcases isNumeral with rfl | rfl
  · exact apart.1.1
  · exact apart.1.2

theorem word_not_passed {spelling : String} {token : Token} {pattern : Pattern}
    (isWord : (spelling, token) ∈ words)
    (isPassed : pattern ∈ [lineComment, blockComment, .char '\n', blanks]) :
    ¬ Matches pattern spelling.toList := by
  have apart := words_apart _ isWord
  simp only [List.mem_cons, List.not_mem_nil, or_false] at isPassed
  rcases isPassed with rfl | rfl | rfl | rfl
  · exact apart.2.1
  · exact apart.2.2.1
  · exact apart.2.2.2.1
  · exact apart.2.2.2.2

theorem not_matches_name {c : Char} {rest : List Char} (starts : isNameStart c = false) :
    ¬ Matches name (c :: rest) := by
  intro matched
  obtain ⟨d, _, same, nameStarts⟩ := name_head matched
  obtain ⟨rfl, _⟩ := List.cons.inj same
  rw [starts] at nameStarts
  exact Bool.false_ne_true nameStarts

theorem numeral_not_name {pattern : Pattern} {text : List Char}
    (isNumeral : pattern ∈ [wholeNumeral, bareFraction]) (matched : Matches pattern text) :
    ¬ Matches name text := by
  obtain ⟨c, rest, rfl, starts⟩ := numeral_head isNumeral matched
  exact not_matches_name (not_isNameStart_of_numeral starts)

theorem passed_not_name {pattern : Pattern} {text : List Char}
    (isPassed : pattern ∈ [lineComment, blockComment, .char '\n', blanks])
    (matched : Matches pattern text) : ¬ Matches name text := by
  obtain ⟨c, rest, rfl, starts⟩ := passed_head isPassed matched
  exact not_matches_name (not_isNameStart_of_passed starts)

theorem passed_not_numeral {pattern other : Pattern} {text : List Char}
    (isPassed : pattern ∈ [lineComment, blockComment, .char '\n', blanks])
    (matched : Matches pattern text) (isNumeral : other ∈ [wholeNumeral, bareFraction]) :
    ¬ Matches other text := by
  intro numeralMatched
  obtain ⟨c, rest, rfl, starts⟩ := passed_head isPassed matched
  obtain ⟨d, _, same, numeralStarts⟩ := numeral_head isNumeral numeralMatched
  obtain ⟨rfl, _⟩ := List.cons.inj same
  exact not_numeral_of_passed starts numeralStarts

theorem Spells.word_of_head {c : Char} {rest : List Char} {token? : Option Token}
    (spells : Spells (c :: rest) token?) (notNumeral : ¬ (c.isDigit = true ∨ c = '.'))
    (notName : isNameStart c = false) (notPassed : ¬ (c = '/' ∨ c = '\n' ∨ isBlank c = true)) :
    ∃ spelling token, (spelling, token) ∈ words ∧ spelling.toList = c :: rest ∧
      token? = some token := by
  generalize isText : c :: rest = text at spells
  cases spells with
  | word isWord => exact ⟨_, _, isWord, rfl, rfl⟩
  | numeral isNumeral matched =>
      obtain ⟨d, others, rfl, starts⟩ := numeral_head isNumeral matched
      rw [← (List.cons.inj isText).1] at starts
      exact absurd starts notNumeral
  | name matched _ => exact absurd (isText ▸ matched) (not_matches_name notName)
  | passed isPassed matched =>
      obtain ⟨d, others, rfl, starts⟩ := passed_head isPassed matched
      rw [← (List.cons.inj isText).1] at starts
      exact absurd starts notPassed

theorem Spells.unique {text : List Char} {token? other? : Option Token}
    (spells : Spells text token?) (otherSpells : Spells text other?) : token? = other? := by
  cases spells with
  | @word spelling token isWord =>
      generalize isText : spelling.toList = text at otherSpells
      cases otherSpells with
      | @word otherSpelling other otherWord =>
          have same : spelling = otherSpelling := String.toList_injective isText
          exact congrArg some (words_unique _ isWord _ otherWord same)
      | numeral isNumeral matched =>
          exact absurd (isText ▸ matched) (word_not_numeral isWord isNumeral)
      | name _ notWord =>
          rw [← isText, String.ofList_toList] at notWord
          exact absurd isWord (notWord token)
      | passed isPassed matched =>
          exact absurd (isText ▸ matched) (word_not_passed isWord isPassed)
  | numeral isNumeral matched denotes rounded =>
      cases otherSpells with
      | word otherWord => exact absurd matched (word_not_numeral otherWord isNumeral)
      | numeral _ _ otherDenotes otherRounded =>
          rw [denotes.roundsTo_iff.mp rounded, otherDenotes.roundsTo_iff.mp otherRounded]
      | name nameMatched _ => exact absurd nameMatched (numeral_not_name isNumeral matched)
      | passed isPassed passedMatched =>
          exact absurd matched (passed_not_numeral isPassed passedMatched isNumeral)
  | name nameMatched notWord =>
      cases otherSpells with
      | word otherWord =>
          rw [String.ofList_toList] at notWord
          exact absurd otherWord (notWord _)
      | numeral isNumeral matched =>
          exact absurd nameMatched (numeral_not_name isNumeral matched)
      | name _ _ => rfl
      | passed isPassed matched => exact absurd nameMatched (passed_not_name isPassed matched)
  | passed isPassed matched =>
      cases otherSpells with
      | word otherWord => exact absurd matched (word_not_passed otherWord isPassed)
      | numeral isNumeral numeralMatched =>
          exact absurd numeralMatched (passed_not_numeral isPassed matched isNumeral)
      | name nameMatched _ => exact absurd nameMatched (passed_not_name isPassed matched)
      | passed _ _ => rfl

theorem Spells.matches_rule {text : List Char} {token? : Option Token}
    (spells : Spells text token?) : ∃ rule ∈ rules, Matches rule.pattern text := by
  rw [rules_eq]
  cases spells with
  | @word spelling token isWord =>
      refine ⟨Lexicon.word spelling token, ?_, by simp [Lexicon.word]⟩
      exact List.mem_append_left _ (List.mem_map.mpr ⟨(spelling, token), isWord, rfl⟩)
  | @numeral _ pattern _ _ isNumeral matched =>
      refine ⟨{ pattern, token? := numberOf }, List.mem_append_right _ ?_, matched⟩
      simp only [List.mem_cons, List.not_mem_nil, or_false] at isNumeral
      rcases isNumeral with rfl | rfl <;> simp
  | name matched _ => exact ⟨_, List.mem_append_right _ (by right; right; left), matched⟩
  | passed isPassed matched =>
      simp only [List.mem_cons, List.not_mem_nil, or_false] at isPassed
      rcases isPassed with rfl | rfl | rfl | rfl
      · exact ⟨_, List.mem_append_right _ (by right; right; right; left), matched⟩
      · exact ⟨_, List.mem_append_right _ (by right; right; right; right; left), matched⟩
      · exact ⟨_, List.mem_append_right _ (by right; right; right; right; right; left), matched⟩
      · exact ⟨_, List.mem_append_right _ (by right; right; right; right; right; right; left),
          matched⟩

theorem spells_of_find {text : List Char} {rule : Rule}
    (found : rules.find? (fun rule => decide (Matches rule.pattern text)) = some rule) :
    Spells text (rule.token? text) := by
  rw [rules_eq, List.find?_append, Option.or_eq_some_iff] at found
  rcases found with found | ⟨noWord, found⟩
  · obtain ⟨entry, isWord, rfl⟩ := List.mem_map.mp (List.mem_of_find?_eq_some found)
    have matched := List.find?_some found
    simp only [word, decide_eq_true_eq, matches_literal_iff] at matched
    subst text
    exact Spells.word isWord
  · have matched := List.find?_some found
    have member := List.mem_of_find?_eq_some found
    simp only [decide_eq_true_eq] at matched
    simp only [List.mem_cons, List.not_mem_nil, or_false] at member
    rcases member with rfl | rfl | rfl | rfl | rfl | rfl | rfl
    · exact spells_numeral (by simp) matched
    · exact spells_numeral (by simp) matched
    · refine Spells.name matched ?_
      intro token isWord
      have missed := List.find?_eq_none.mp noWord _ (List.mem_map.mpr ⟨_, isWord, rfl⟩)
      simp [word] at missed
    all_goals exact Spells.passed (by simp [passedOver]) matched

theorem words_lineEnd : ∀ entry ∈ words, '\n' ∉ entry.1.toList := by decide +kernel

/-- Every rule counts the line ends of its matches, although only two of them look for any. -/
theorem lineEnds_of_matches {rule : Rule} {text : List Char} (isRule : rule ∈ rules)
    (matched : Matches rule.pattern text) : rule.lineEnds text = text.count '\n' := by
  have noneInside {pattern : Pattern} (matched : Matches pattern text)
      (unmentioned : pattern.mentions '\n' = false) : 0 = text.count '\n' := by
    refine (List.count_eq_zero.mpr fun inside => ?_).symm
    rw [matched.mentions inside] at unmentioned
    exact Bool.noConfusion unmentioned
  rw [rules_eq] at isRule
  rcases List.mem_append.mp isRule with isWord | isOther
  · obtain ⟨entry, isEntry, rfl⟩ := List.mem_map.mp isWord
    obtain rfl : text = entry.1.toList := matches_literal_iff.mp matched
    exact (List.count_eq_zero.mpr (words_lineEnd entry isEntry)).symm
  · simp only [List.mem_cons, List.not_mem_nil, or_false] at isOther
    rcases isOther with rfl | rfl | rfl | rfl | rfl | rfl | rfl
    · exact noneInside matched (by decide)
    · exact noneInside matched (by decide)
    · exact noneInside matched (by decide)
    · exact noneInside matched (by decide)
    · rfl
    · obtain rfl : text = ['\n'] := matches_char_iff.mp matched
      rfl
    · exact noneInside matched (by decide)

theorem longestMatch_eq_none {rules : List Rule} {text : List Char}
    (found : longestMatch rules text = none) {rule : Rule} (member : rule ∈ rules)
    {front : List Char} (isFront : front <+: text) (matched : Matches rule.pattern front) :
    front = [] := by
  induction rules with
  | nil => simp at member
  | cons first others ih =>
      rw [longestMatch] at found
      cases longest : first.pattern.longest text with
      | none =>
          simp only [longest] at found
          rcases List.mem_cons.mp member with rfl | member
          · exact absurd matched (longest_eq_none longest isFront)
          · exact ih found member
      | some length =>
          cases othersFound : longestMatch others text with
          | some other =>
              simp only [longest, othersFound] at found
              split at found <;> simp at found
          | none =>
              simp only [longest, othersFound, ite_eq_left_iff, reduceCtorEq, imp_false,
                Decidable.not_not] at found
              rcases List.mem_cons.mp member with rfl | member
              · have bound := (longest_eq_some longest).2.2 front isFront matched
                exact List.length_eq_zero_iff.mp (by omega)
              · exact ih othersFound member

theorem longestMatch_eq_some {rules : List Rule} {text : List Char} {rule : Rule} {length : Nat}
    (found : longestMatch rules text = some (rule, length)) :
    0 < length ∧ length ≤ text.length ∧
      rules.find? (fun rule => decide (Matches rule.pattern (text.take length))) = some rule ∧
      ∀ other ∈ rules, ∀ front, front <+: text → Matches other.pattern front →
        front.length ≤ length := by
  induction rules generalizing rule length with
  | nil => simp [longestMatch] at found
  | cons first others ih =>
      rw [longestMatch] at found
      cases longest : first.pattern.longest text with
      | none =>
          simp only [longest] at found
          obtain ⟨positive, within, isFirst, bound⟩ := ih found
          have missed : ¬ Matches first.pattern (text.take length) :=
            longest_eq_none longest (List.take_prefix length text)
          refine ⟨positive, within, by simp [missed, isFirst], List.forall_mem_cons.mpr ⟨?_, bound⟩⟩
          intro front isFront matched
          exact absurd matched (longest_eq_none longest isFront)
      | some firstLength =>
          obtain ⟨firstWithin, firstMatched, firstBound⟩ := longest_eq_some longest
          cases othersFound : longestMatch others text with
          | none =>
              simp only [longest, othersFound] at found
              split at found
              · simp at found
              · rename_i positive
                simp only [Option.some.injEq, Prod.mk.injEq] at found
                obtain ⟨rfl, rfl⟩ := found
                refine ⟨by omega, firstWithin, by simp [firstMatched],
                  List.forall_mem_cons.mpr ⟨firstBound, ?_⟩⟩
                intro other member front isFront matched
                rw [longestMatch_eq_none othersFound member isFront matched]
                exact Nat.zero_le _
          | some best =>
              obtain ⟨other, otherLength⟩ := best
              obtain ⟨positive, within, isFirst, bound⟩ := ih othersFound
              simp only [longest, othersFound] at found
              split at found
              · rename_i shorter
                simp only [Option.some.injEq, Prod.mk.injEq] at found
                obtain ⟨rfl, rfl⟩ := found
                refine ⟨by omega, firstWithin, by simp [firstMatched],
                  List.forall_mem_cons.mpr ⟨firstBound, ?_⟩⟩
                intro other member front isFront matched
                exact Nat.le_trans (bound other member front isFront matched) shorter
              · rename_i longer
                simp only [Option.some.injEq, Prod.mk.injEq] at found
                obtain ⟨rfl, rfl⟩ := found
                have missed : ¬ Matches first.pattern (text.take otherLength) := by
                  intro matched
                  have short := firstBound _ (List.take_prefix otherLength text) matched
                  rw [List.length_take, Nat.min_eq_left within] at short
                  exact longer short
                refine ⟨positive, within, by simp [missed, isFirst],
                  List.forall_mem_cons.mpr ⟨?_, bound⟩⟩
                intro front isFront matched
                have short := firstBound front isFront matched
                omega

end WhileLang.Lexicon
