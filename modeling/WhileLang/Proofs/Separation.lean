import WhileLang.Proofs.LineEnds

/-!
Lexemes that are kept apart are read one by one. A separator begins with a blank or a line end,
which no lexeme that stands for a token can take in, and goes on with blanks, line ends and
comments, which are passed over. So each lexeme of a text with separators between them is the
longest where it begins, whichever one comes next.
-/

namespace WhileLang.Lexicon

open Pattern

def isSpace (c : Char) : Bool := isBlank c || c == '\n'

inductive Filler : List Char → Prop
  | nil : Filler []
  | space {c rest} : isSpace c = true → Filler rest → Filler (c :: rest)
  | lineComment {text rest} : (∀ c ∈ text, c ≠ '\n' ∧ c ≠ '\r') → Filler rest →
      Filler (['/', '/'] ++ text ++ '\n' :: rest)
  | blockComment {body rest} : '*' ∉ body → Filler rest →
      Filler (['/', '*'] ++ (body ++ ['*', '/']) ++ rest)

def Separator (text : String) : Prop :=
  ∃ c rest, text.toList = c :: rest ∧ isSpace c = true ∧ Filler rest

def IsLexeme (text : String) : Prop :=
  text ∈ words.map Prod.fst ∨ Matches name text.toList ∨
    Matches wholeNumeral text.toList ∨ Matches bareFraction text.toList

instance (text : String) : Decidable (IsLexeme text) := inferInstanceAs (Decidable (_ ∨ _))

def joined : List String → List String → String
  | [], _ => ""
  | [lexeme], _ => lexeme
  | lexeme :: next :: lexemes, separators =>
      lexeme ++ separators.headD "" ++ joined (next :: lexemes) separators.tail

/-- `JoinedTokens before lexemes separators tokens`: behind the text `before` the joined lexemes
stand for the tokens, each on the line that the text in front of it leads to. -/
inductive JoinedTokens : String → List String → List String → List Located → Prop
  | nil {before separators} : JoinedTokens before [] separators []
  | cons {before lexeme lexemes separators token tokens} : Spells lexeme.toList (some token) →
      JoinedTokens (before ++ lexeme ++ separators.headD "") lexemes separators.tail tokens →
        JoinedTokens before (lexeme :: lexemes) separators
          ({ token, line := 1 + before.toList.count '\n' } :: tokens)

theorem IsLexeme.exists_token {text : String} (isLexeme : IsLexeme text) :
    ∃ token, Spells text.toList (some token) := by
  rcases isLexeme with isWord | matched | matched | matched
  · obtain ⟨entry, member, rfl⟩ := List.mem_map.mp isWord
    exact ⟨entry.2, .word member⟩
  · by_cases isWord : ∃ token, (text, token) ∈ words
    · obtain ⟨token, member⟩ := isWord
      exact ⟨token, .word member⟩
    · exact ⟨_, .name matched fun token member => isWord ⟨token, by simpa using member⟩⟩
  · exact ⟨_, spells_numeral (by simp) matched⟩
  · exact ⟨_, spells_numeral (by simp) matched⟩

theorem exists_joinedTokens {lexemes : List String}
    (areLexemes : ∀ lexeme ∈ lexemes, IsLexeme lexeme) (before : String)
    (separators : List String) : ∃ tokens, JoinedTokens before lexemes separators tokens := by
  induction lexemes generalizing before separators with
  | nil => exact ⟨[], .nil⟩
  | cons lexeme lexemes ih =>
      obtain ⟨isLexeme, areOthers⟩ := List.forall_mem_cons.mp areLexemes
      obtain ⟨token, spells⟩ := isLexeme.exists_token
      obtain ⟨tokens, following⟩ := ih areOthers (before ++ lexeme ++ separators.headD "")
        separators.tail
      exact ⟨_, .cons spells following⟩

theorem words_ne_nil : ∀ entry ∈ words, entry.1.toList ≠ [] := by decide +kernel

theorem words_space : ∀ entry ∈ words, entry.1.toList.any isSpace = false := by
  decide +kernel

theorem words_slash : ∀ entry ∈ words, entry.1.toList.head? = some '/' →
    entry.1.toList = ['/'] := by decide +kernel

theorem mentions_space {c : Char} (space : isSpace c = true) :
    wholeNumeral.mentions c = false ∧ bareFraction.mentions c = false ∧
      name.mentions c = false := by
  simp only [isSpace, isBlank, Bool.or_eq_true, beq_iff_eq] at space
  rcases space with (((rfl | rfl) | rfl) | rfl) | rfl <;> decide

theorem Spells.exists_head {text : List Char} {token? : Option Token}
    (spells : Spells text token?) : ∃ c rest, text = c :: rest := by
  cases spells with
  | word isWord => exact List.exists_cons_of_ne_nil (words_ne_nil _ isWord)
  | numeral isNumeral matched =>
      obtain ⟨c, rest, isText, _⟩ := numeral_head isNumeral matched
      exact ⟨c, rest, isText⟩
  | name matched _ =>
      obtain ⟨c, rest, isText, _⟩ := name_head matched
      exact ⟨c, rest, isText⟩
  | passed isPassed matched =>
      obtain ⟨c, rest, isText, _⟩ := passed_head isPassed matched
      exact ⟨c, rest, isText⟩

theorem Spells.no_space {text : List Char} {token : Token} (spells : Spells text (some token))
    {c : Char} (inside : c ∈ text) : isSpace c = false := by
  generalize isSome : some token = token? at spells
  apply Bool.eq_false_iff.mpr
  intro space
  obtain ⟨notWhole, notFraction, notName⟩ := mentions_space space
  cases spells with
  | word isWord =>
      have anySpace := List.any_eq_true.mpr ⟨c, inside, space⟩
      rw [words_space _ isWord] at anySpace
      cases anySpace
  | numeral isNumeral matched =>
      have mentioned := matched.mentions inside
      simp only [List.mem_cons, List.not_mem_nil, or_false] at isNumeral
      rcases isNumeral with rfl | rfl
      · exact absurd mentioned (by simp [notWhole])
      · exact absurd mentioned (by simp [notFraction])
  | name matched _ => exact absurd (matched.mentions inside) (by simp [notName])
  | passed => cases isSome

theorem Spells.slash {rest : List Char} {token? : Option Token}
    (spells : Spells ('/' :: rest) token?) :
    rest = [] ∨ token? = none ∧
      (Matches lineComment ('/' :: rest) ∨ Matches blockComment ('/' :: rest)) := by
  generalize isText : '/' :: rest = text at spells ⊢
  cases spells with
  | word isWord =>
      have isSlash := words_slash _ isWord (by rw [← isText]; rfl)
      rw [← isText] at isSlash
      exact .inl (List.cons.inj isSlash).2
  | numeral isNumeral matched =>
      obtain ⟨c, others, rfl, starts⟩ := numeral_head isNumeral matched
      rw [← (List.cons.inj isText).1] at starts
      exact absurd starts (by decide)
  | name matched _ =>
      obtain ⟨c, others, rfl, starts⟩ := name_head matched
      rw [← (List.cons.inj isText).1] at starts
      exact absurd starts (by decide)
  | passed isPassed matched =>
      simp only [List.mem_cons, List.not_mem_nil, or_false] at isPassed
      rcases isPassed with rfl | rfl | rfl | rfl
      · exact .inr ⟨rfl, .inl matched⟩
      · exact .inr ⟨rfl, .inr matched⟩
      · obtain rfl := matches_char_iff.mp matched
        exact absurd (List.cons.inj isText).1 (by decide)
      · obtain ⟨_, allBlank⟩ := matches_oneOrMore_one_iff.mp matched
        exact absurd (allBlank '/' (by simp [← isText])) (by decide)

theorem matches_lineComment_iff {text : List Char} :
    Matches lineComment text ↔
      ∃ rest, text = ['/', '/'] ++ rest ∧ ∀ c ∈ rest, c ≠ '\n' ∧ c ≠ '\r' := by
  rw [lineComment, matches_followedBy_iff]
  simp only [matches_literal_iff, matches_many_one_iff, Bool.and_eq_true, bne_iff_ne, ne_eq]
  constructor
  · rintro ⟨front, back, rfl, rfl, inLine⟩
    exact ⟨back, rfl, inLine⟩
  · rintro ⟨back, rfl, inLine⟩
    exact ⟨_, back, rfl, rfl, inLine⟩

theorem exists_behind {front lexeme rest : List Char} {c : Char}
    (isFront : front <+: lexeme ++ c :: rest) (longer : lexeme.length < front.length) :
    ∃ behind, front = lexeme ++ c :: behind := by
  have isStart : lexeme ++ [c] <+: lexeme ++ c :: rest := by simp
  have within : (lexeme ++ [c]).length ≤ front.length := by
    rw [List.length_append, List.length_singleton]
    omega
  obtain ⟨behind, isSplit⟩ := List.prefix_of_prefix_length_le isStart isFront within
  exact ⟨behind, by simp [← isSplit]⟩

theorem Spells.head_of_none {c : Char} {rest : List Char} (spells : Spells (c :: rest) none) :
    c = '/' ∨ isSpace c = true := by
  generalize isText : c :: rest = text at spells
  cases spells with
  | passed isPassed matched =>
      obtain ⟨d, others, rfl, starts⟩ := passed_head isPassed matched
      obtain ⟨rfl, _⟩ := List.cons.inj isText
      rcases starts with isSlash | isLineEnd | isBlank
      · exact .inl isSlash
      · exact .inr (by simp [isSpace, isLineEnd])
      · exact .inr (by simp [isSpace, isBlank])

theorem Spells.longest_before_space {lexeme : List Char} {token : Token}
    (spells : Spells lexeme (some token)) {c : Char} (space : isSpace c = true)
    (rest : List Char) : Longest lexeme (c :: rest) := by
  obtain ⟨d, tail, rfl⟩ := spells.exists_head
  refine ⟨by simp, ⟨_, spells⟩, ?_⟩
  intro front token? isFront frontSpells
  apply Nat.le_of_not_lt
  intro longer
  -- A longer one has the space inside and so stands for no token. It does not begin with a space
  -- either, so it is a comment. Then the lexeme is its first slash, and a space is no second one.
  obtain ⟨behind, rfl⟩ := exists_behind isFront longer
  cases token? with
  | some other =>
      have noSpace := frontSpells.no_space (c := c) (by simp)
      rw [space] at noSpace
      cases noSpace
  | none =>
      obtain rfl : d = '/' := by
        rcases frontSpells.head_of_none with isSlash | headSpace
        · exact isSlash
        · rw [spells.no_space (by simp)] at headSpace
          cases headSpace
      obtain rfl : tail = [] := by
        rcases spells.slash with isEmpty | ⟨impossible, _⟩
        · exact isEmpty
        · cases impossible
      rcases frontSpells.slash with impossible | ⟨_, comment | comment⟩
      · cases impossible
      · obtain ⟨_, isComment, _⟩ := matches_lineComment_iff.mp comment
        obtain rfl := (List.cons.inj (List.cons.inj isComment).2).1
        exact absurd space (by decide)
      · obtain ⟨_, isComment, _⟩ := matches_blockComment_iff.mp comment
        obtain rfl := (List.cons.inj (List.cons.inj isComment).2).1
        exact absurd space (by decide)

theorem isBlank_of_spells {c : Char} {rest : List Char} {token? : Option Token}
    (spells : Spells (c :: rest) token?) (blank : isBlank c = true) :
    ∀ d ∈ c :: rest, isBlank d = true := by
  have space : isSpace c = true := by simp [isSpace, blank]
  generalize isText : c :: rest = text at spells ⊢
  cases token? with
  | some token =>
      have noSpace := spells.no_space (c := c) (by simp [← isText])
      rw [space] at noSpace
      cases noSpace
  | none =>
      cases spells with
      | passed isPassed matched =>
          simp only [List.mem_cons, List.not_mem_nil, or_false] at isPassed
          rcases isPassed with rfl | rfl | rfl | rfl
          · obtain ⟨_, rfl, _⟩ := matches_lineComment_iff.mp matched
            rw [(List.cons.inj isText).1] at blank
            exact absurd blank (by decide)
          · obtain ⟨_, rfl, _⟩ := matches_blockComment_iff.mp matched
            rw [(List.cons.inj isText).1] at blank
            exact absurd blank (by decide)
          · obtain rfl := matches_char_iff.mp matched
            rw [(List.cons.inj isText).1] at blank
            exact absurd blank (by decide)
          · exact (matches_oneOrMore_one_iff.mp matched).2

theorem isBlank_of_mem_takeWhile (text : List Char) :
    ∀ c ∈ text.takeWhile isBlank, isBlank c = true :=
  List.all_eq_true.mp List.all_takeWhile

theorem longest_blanks {c : Char} {rest : List Char} (blank : isBlank c = true) :
    Longest ((c :: rest).takeWhile isBlank) ((c :: rest).dropWhile isBlank) ∧
      Spells ((c :: rest).takeWhile isBlank) none := by
  have nonempty : (c :: rest).takeWhile isBlank ≠ [] := by
    rw [List.takeWhile_cons_of_pos blank]
    exact List.cons_ne_nil _ _
  have matched : Matches blanks ((c :: rest).takeWhile isBlank) :=
    matches_oneOrMore_one_iff.mpr ⟨nonempty, isBlank_of_mem_takeWhile _⟩
  have spells : Spells ((c :: rest).takeWhile isBlank) none := .passed (by simp) matched
  refine ⟨⟨nonempty, ⟨none, spells⟩, ?_⟩, spells⟩
  intro front token? isFront frontSpells
  rw [List.takeWhile_append_dropWhile] at isFront
  obtain ⟨d, others, rfl⟩ := frontSpells.exists_head
  obtain ⟨behind, isText⟩ := isFront
  obtain rfl : d = c := (List.cons.inj isText).1
  -- A lexeme that begins with a blank is all blanks, and the blanks taken are all there are.
  have frontBlank := isBlank_of_spells frontSpells blank
  rw [← isText, List.takeWhile_append_of_pos frontBlank, List.length_append]
  omega

theorem count_lineEnd_of_blank {text : List Char} (allBlank : ∀ c ∈ text, isBlank c = true) :
    text.count '\n' = 0 := by
  refine List.count_eq_zero.mpr fun inside => ?_
  exact absurd (allBlank '\n' inside) (by decide)

theorem scan_dropWhile_blank (line : Nat) (text : List Char) :
    scan line 0 (text.dropWhile isBlank) = scan line 0 text := by
  cases text with
  | nil => rfl
  | cons c rest =>
      cases blank : isBlank c with
      | false => rw [List.dropWhile_cons_of_neg (by simp [blank])]
      | true =>
          obtain ⟨longest, spells⟩ := @longest_blanks c rest blank
          have scanned := @scan_next line _ _ _ longest spells
          have noLineEnd := count_lineEnd_of_blank (isBlank_of_mem_takeWhile (c :: rest))
          rw [List.takeWhile_append_dropWhile, noLineEnd, Nat.add_zero] at scanned
          exact scanned.symm

theorem scan_space {c : Char} (space : isSpace c = true) (line : Nat) (rest : List Char) :
    scan line 0 (c :: rest) = scan (line + [c].count '\n') 0 rest := by
  cases blank : isBlank c with
  | true =>
      rw [← scan_dropWhile_blank line (c :: rest), List.dropWhile_cons_of_pos blank,
        scan_dropWhile_blank, count_lineEnd_of_blank (by simpa using blank), Nat.add_zero]
  | false =>
      obtain rfl : c = '\n' := by simpa [isSpace, blank] using space
      exact scan_next (longest_lineEnd rest) spells_lineEnd

theorem longest_lineComment {text : List Char} (inLine : ∀ c ∈ text, c ≠ '\n' ∧ c ≠ '\r')
    (rest : List Char) :
    Longest (['/', '/'] ++ text) ('\n' :: rest) ∧ Spells (['/', '/'] ++ text) none := by
  have matched := matches_lineComment_iff.mpr ⟨text, rfl, inLine⟩
  have spells := Spells.passed (by simp) matched
  refine ⟨⟨by simp, ⟨none, spells⟩, ?_⟩, spells⟩
  intro front token? isFront frontSpells
  apply Nat.le_of_not_lt
  intro longer
  obtain ⟨behind, rfl⟩ := exists_behind isFront longer
  rcases frontSpells.slash with impossible | ⟨_, comment | comment⟩
  · cases impossible
  · exact absurd (comment.mentions (c := '\n') (by simp)) (by decide)
  · obtain ⟨_, isComment, _⟩ := matches_blockComment_iff.mp comment
    exact absurd (List.cons.inj (List.cons.inj isComment).2).1 (by decide)

theorem filled_of_no_star {body : List Char} (noStar : '*' ∉ body) : Filled body := by
  induction body with
  | nil => exact .nil
  | cons c rest ih =>
      simp only [List.mem_cons, not_or] at noStar
      exact .other (Ne.symm noStar.1) (ih noStar.2)

theorem scan_filler {text : List Char} (filler : Filler text) (line : Nat) (rest : List Char) :
    scan line 0 (text ++ rest) = scan (line + text.count '\n') 0 rest := by
  induction filler generalizing line with
  | nil => rfl
  | @space c text space _ ih =>
      rw [List.cons_append, scan_space space, ih, Nat.add_assoc, ← List.count_append]
      rfl
  | @lineComment comment text inLine _ ih =>
      obtain ⟨longest, spells⟩ := longest_lineComment inLine (text ++ rest)
      have isCount : (['/', '/'] ++ comment ++ '\n' :: text).count '\n' =
          (['/', '/'] ++ comment).count '\n' + (['\n'].count '\n' + text.count '\n') := by
        rw [List.count_append, List.count_cons_self, List.count_singleton_self]
        omega
      calc scan line 0 (['/', '/'] ++ comment ++ '\n' :: text ++ rest)
          = scan line 0 (['/', '/'] ++ comment ++ '\n' :: (text ++ rest)) := by
            rw [List.append_assoc _ _ rest]
            rfl
        _ = scan (line + (['/', '/'] ++ comment).count '\n') 0 ('\n' :: (text ++ rest)) :=
            scan_next longest spells
        _ = scan (line + (['/', '/'] ++ comment).count '\n' + ['\n'].count '\n') 0
              (text ++ rest) := scan_space (by decide) _ _
        _ = scan (line + (['/', '/'] ++ comment ++ '\n' :: text).count '\n') 0 rest := by
            rw [ih, isCount, Nat.add_assoc, Nat.add_assoc]
  | @blockComment body text noStar _ ih =>
      obtain ⟨longest, spells⟩ := longest_blockComment (text ++ rest) (filled_of_no_star noStar)
      rw [List.append_assoc, scan_next longest spells, precede, ih, Nat.add_assoc,
        ← List.count_append]

theorem Separator.filler {text : String} (separator : Separator text) : Filler text.toList := by
  obtain ⟨c, rest, isText, space, filler⟩ := separator
  rw [isText]
  exact .space space filler

theorem scan_lexeme {lexeme separator : String} {token : Token}
    (spells : Spells lexeme.toList (some token)) (isSeparator : Separator separator) (line : Nat)
    (rest : List Char) :
    scan line 0 (lexeme.toList ++ (separator.toList ++ rest)) =
      (scan (line + (lexeme.toList ++ separator.toList).count '\n') 0 rest).map
        ({ token, line } :: ·) := by
  have longest : Longest lexeme.toList (separator.toList ++ rest) := by
    obtain ⟨c, others, isText, space, _⟩ := isSeparator
    rw [isText]
    exact spells.longest_before_space space (others ++ rest)
  rw [scan_next longest spells, scan_filler isSeparator.filler, Nat.add_assoc,
    ← List.count_append]
  rfl

theorem scan_joined {lexemes separators : List String}
    (areSeparators : ∀ separator ∈ separators, Separator separator)
    (enough : lexemes.length ≤ separators.length + 1) {before : String} {tokens : List Located}
    (stand : JoinedTokens before lexemes separators tokens) :
    scan (1 + before.toList.count '\n') 0 (joined lexemes separators).toList = .ok tokens := by
  fun_induction joined lexemes separators generalizing before tokens with
  | case1 =>
      cases stand
      exact scan_nil
  | case2 lexeme separators =>
      cases stand with
      | cons spells following =>
          cases following
          obtain ⟨c, rest, isText⟩ := spells.exists_head
          exact scan_alone (by simp [isText]) spells
  | case3 lexeme next lexemes separators ih =>
      obtain ⟨separator, separators, rfl⟩ : ∃ first others, separators = first :: others := by
        apply List.exists_cons_of_length_pos
        simp only [List.length_cons] at enough
        omega
      obtain ⟨isSeparator, areOthers⟩ := List.forall_mem_cons.mp areSeparators
      cases stand with
      | cons spells following =>
          have scanned := ih areOthers (by simpa using enough) following
          have isLine : 1 + before.toList.count '\n' +
              (lexeme.toList ++ separator.toList).count '\n' =
                1 + (before ++ lexeme ++ separator).toList.count '\n' := by
            simp only [String.toList_append, List.count_append]
            omega
          rw [String.toList_append, String.toList_append, List.append_assoc, List.headD_cons,
            scan_lexeme spells isSeparator, isLine]
          rw [List.headD_cons] at scanned
          rw [scanned]
          rfl

/-- Lexemes with separators between them are read one by one, whatever they are, each on the line
that it begins on. -/
theorem tokenize_joined (lexemes separators : List String)
    (areLexemes : ∀ lexeme ∈ lexemes, IsLexeme lexeme)
    (areSeparators : ∀ separator ∈ separators, Separator separator)
    (enough : lexemes.length ≤ separators.length + 1) :
    (∃ tokens, tokenize (joined lexemes separators) = .ok tokens) ∧
      ∀ tokens, tokenize (joined lexemes separators) = .ok tokens ↔
        JoinedTokens "" lexemes separators tokens := by
  obtain ⟨tokens, stand⟩ := exists_joinedTokens areLexemes "" separators
  have tokenized : tokenize (joined lexemes separators) = .ok tokens :=
    scan_joined areSeparators enough stand
  refine ⟨⟨tokens, tokenized⟩, fun others => ⟨fun otherTokenized => ?_, fun otherStand => ?_⟩⟩
  · obtain rfl := Except.ok.inj (tokenized.symm.trans otherTokenized)
    exact stand
  · exact scan_joined areSeparators enough otherStand

/-- A slash in front of a comment, a numeral in front of a name, an equals sign in front of the word
that begins with one, and names that begin like a keyword or end like one. -/
theorem tokenize_joined_neighbours :
    tokenize "/ /* = */1e5\ne5 // /\n\t= === whilst\r_if" =
      .ok [⟨.operator .divide, 1⟩, ⟨.number 100000, 1⟩, ⟨.identifier "e5", 2⟩, ⟨.equals, 3⟩,
        ⟨.operator .strictEqual, 3⟩, ⟨.identifier "whilst", 3⟩, ⟨.identifier "_if", 3⟩] := by
  have areLexemes : ∀ lexeme ∈ ["/", "1e5", "e5", "=", "===", "whilst", "_if"],
      IsLexeme lexeme := by decide +kernel
  have areSeparators : ∀ separator ∈ [" /* = */", "\n", " // /\n\t", " ", " ", "\r"],
      Separator separator := by
    have alone {text : String} {c : Char} (isText : text.toList = [c])
        (space : isSpace c = true) : Separator text := ⟨c, [], isText, space, .nil⟩
    simp only [List.forall_mem_cons, List.not_mem_nil, false_implies, implies_true, and_true]
    refine ⟨?_, alone rfl rfl, ?_, alone rfl rfl, alone rfl rfl, alone rfl rfl⟩
    · exact ⟨' ', _, rfl, rfl, @Filler.blockComment [' ', '=', ' '] [] (by decide) .nil⟩
    · exact ⟨' ', _, rfl, rfl,
        @Filler.lineComment [' ', '/'] ['\t'] (by simp) (.space rfl .nil)⟩
  have isText : joined ["/", "1e5", "e5", "=", "===", "whilst", "_if"]
      [" /* = */", "\n", " // /\n\t", " ", " ", "\r"] =
        "/ /* = */1e5\ne5 // /\n\t= === whilst\r_if" := by decide +kernel
  have isWord {spelling : String} {token : Token} (member : (spelling, token) ∈ words) :
      Spells spelling.toList (some token) := .word member
  have isName {text : String}
      (plain : Matches name text.toList ∧ text ∉ words.map Prod.fst) :
      Spells text.toList (some (.identifier text)) := by
    have spells := Spells.name plain.1 fun token member =>
      plain.2 (List.mem_map.mpr ⟨_, member, String.ofList_toList⟩)
    rwa [String.ofList_toList] at spells
  have isNumber : Spells "1e5".toList (some (.number 100000)) := by
    have denotes := @Decimal.Denotes.whole ['1'] ['e', '5'] 5
      (List.forall_mem_singleton.mpr rfl) (.plain (.inl rfl) (List.forall_mem_singleton.mpr rfl))
    exact .numeral (List.mem_cons_self ..) (by decide) denotes
      (denotes.roundsTo_iff.mpr (by decide +kernel))
  rw [← isText, (tokenize_joined _ _ areLexemes areSeparators (by decide)).2]
  exact .cons (isWord (by simp [words])) <| .cons isNumber <|
    .cons (isName (by decide +kernel)) <| .cons (isWord (by simp [words])) <|
    .cons (isWord (by simp [words])) <| .cons (isName (by decide +kernel)) <|
    .cons (isName (by decide +kernel)) .nil

end WhileLang.Lexicon
