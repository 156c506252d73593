import WhileLang.Proofs.Lexemes

/-!
A source text falls into the longest lexemes. The reference takes one lexeme after another off the
text, each the longest that begins there, until the text is used up or no lexeme begins at what is
left. The tokens of a text are those its lexemes stand for, and the first character that is left
is the one that is reported.
-/

namespace WhileLang.Lexicon

structure Longest (lexeme rest : List Char) : Prop where
  nonempty : lexeme ≠ []
  isLexeme : ∃ token?, Spells lexeme token?
  atMost : ∀ front token?, front <+: lexeme ++ rest → Spells front token? →
    front.length ≤ lexeme.length

/-- `Munches text lexemes stop`: the text falls into the lexemes, each the longest where it begins,
and what is left over, `stop`, begins with no lexeme. -/
inductive Munches : List Char → List (List Char) → List Char → Prop
  | stuck {text} : (∀ front token?, front <+: text → Spells front token? → front = []) →
      Munches text [] text
  | next {lexeme rest lexemes stop} : Longest lexeme rest → Munches rest lexemes stop →
      Munches (lexeme ++ rest) (lexeme :: lexemes) stop

/-- `Stand line lexemes tokens`: the lexemes, the first of which begins on `line`, stand for the
tokens. -/
inductive Stand : Nat → List (List Char) → List Located → Prop
  | nil {line} : Stand line [] []
  | passed {line lexeme lexemes tokens} : Spells lexeme none →
      Stand (line + lexeme.count '\n') lexemes tokens → Stand line (lexeme :: lexemes) tokens
  | token {line lexeme lexemes token tokens} : Spells lexeme (some token) →
      Stand (line + lexeme.count '\n') lexemes tokens →
        Stand line (lexeme :: lexemes) ({ token, line } :: tokens)

theorem Longest.unique {lexeme rest other otherRest : List Char} (longest : Longest lexeme rest)
    (otherLongest : Longest other otherRest) (same : lexeme ++ rest = other ++ otherRest) :
    lexeme = other ∧ rest = otherRest := by
  obtain ⟨token?, spells⟩ := longest.isLexeme
  obtain ⟨other?, otherSpells⟩ := otherLongest.isLexeme
  have notShorter : other.length ≤ lexeme.length :=
    longest.atMost other other? (same ▸ List.prefix_append other otherRest) otherSpells
  have notLonger : lexeme.length ≤ other.length :=
    otherLongest.atMost lexeme token? (same ▸ List.prefix_append lexeme rest) spells
  exact List.append_inj same (Nat.le_antisymm notLonger notShorter)

theorem longestMatch_none_stuck {text : List Char} (found : longestMatch rules text = none) :
    ∀ front token?, front <+: text → Spells front token? → front = [] := by
  intro front token? isFront spells
  obtain ⟨rule, member, matched⟩ := spells.matches_rule
  exact longestMatch_eq_none found member isFront matched

theorem longestMatch_some_longest {text : List Char} {rule : Rule} {length : Nat}
    (found : longestMatch rules text = some (rule, length)) :
    Longest (text.take length) (text.drop length) ∧
      Spells (text.take length) (rule.token? (text.take length)) := by
  obtain ⟨positive, within, isFirst, bound⟩ := longestMatch_eq_some found
  have spells := spells_of_find isFirst
  have sameLength : (text.take length).length = length := by
    rw [List.length_take, Nat.min_eq_left within]
  refine ⟨⟨?_, ⟨_, spells⟩, ?_⟩, spells⟩
  · exact List.ne_nil_of_length_pos (by omega)
  · intro front token? isFront frontSpells
    rw [List.take_append_drop] at isFront
    obtain ⟨other, member, matched⟩ := frontSpells.matches_rule
    rw [sameLength]
    exact bound other member front isFront matched

theorem longestMatch_some_lineEnds {text : List Char} {rule : Rule} {length : Nat}
    (found : longestMatch rules text = some (rule, length)) :
    rule.lineEnds (text.take length) = (text.take length).count '\n' := by
  obtain ⟨_, _, isFirst, _⟩ := longestMatch_eq_some found
  have matched : Pattern.Matches rule.pattern (text.take length) := by
    simpa using List.find?_some isFirst
  exact lineEnds_of_matches (List.mem_of_find?_eq_some isFirst) matched

theorem scan_nil {line pending : Nat} : scan line pending [] = .ok [] := by
  cases pending <;> rfl

theorem scan_pending {line pending : Nat} {text : List Char} :
    scan line pending text = scan line 0 (text.drop pending) := by
  induction pending generalizing text with
  | zero => rfl
  | succ pending ih =>
      cases text with
      | nil => simp only [List.drop_nil, scan_nil]
      | cons c rest =>
          rw [scan, List.drop_succ_cons]
          exact ih

theorem scan_stuck {line : Nat} {c : Char} {rest : List Char}
    (stuck : ∀ front token?, front <+: c :: rest → Spells front token? → front = []) :
    scan line 0 (c :: rest) = .error { line, fault := .unexpected (.character c) } := by
  cases found : longestMatch rules (c :: rest) with
  | none => simp only [scan, found]
  | some best =>
      obtain ⟨rule, length⟩ := best
      obtain ⟨longest, spells⟩ := longestMatch_some_longest found
      exact absurd (stuck _ _ (List.take_prefix _ _) spells) longest.nonempty

def precede (line : Nat) (token? : Option Token) (following : Except Error (List Located)) :
    Except Error (List Located) :=
  match token? with
  | none => following
  | some token => following.map ({ token, line } :: ·)

theorem scan_next {line : Nat} {lexeme rest : List Char} {token? : Option Token}
    (longest : Longest lexeme rest) (spells : Spells lexeme token?) :
    scan line 0 (lexeme ++ rest) =
      precede line token? (scan (line + lexeme.count '\n') 0 rest) := by
  cases isText : lexeme ++ rest with
  | nil => exact absurd (List.append_eq_nil_iff.mp isText).1 longest.nonempty
  | cons c following =>
      cases found : longestMatch rules (c :: following) with
      | none =>
          have isFront : lexeme <+: c :: following := ⟨rest, isText⟩
          have empty := longestMatch_none_stuck found lexeme token? isFront spells
          exact absurd empty longest.nonempty
      | some best =>
          obtain ⟨rule, length⟩ := best
          have positive := (longestMatch_eq_some found).1
          obtain ⟨taken, takenSpells⟩ := longestMatch_some_longest found
          obtain ⟨isTaken, isLeft⟩ := longest.unique taken
            (isText.trans (List.take_append_drop length (c :: following)).symm)
          have isToken : rule.token? lexeme = token? := by
            rw [← isTaken] at takenSpells
            exact takenSpells.unique spells
          have left : following.drop (length - 1) = rest := by
            rw [isLeft, ← List.drop_succ_cons, Nat.sub_add_cancel positive]
          have isDown : rule.lineEnds lexeme = lexeme.count '\n' := by
            rw [isTaken]
            exact longestMatch_some_lineEnds found
          simp only [scan, found, ← isTaken, isToken, isDown]
          rw [scan_pending, left]
          cases token? <;> rfl

theorem Spells.longest_alone {lexeme : List Char} {token? : Option Token} (nonempty : lexeme ≠ [])
    (spells : Spells lexeme token?) : Longest lexeme [] := by
  refine ⟨nonempty, ⟨token?, spells⟩, ?_⟩
  intro front _ isFront _
  rw [List.append_nil] at isFront
  exact isFront.length_le

theorem scan_alone {line : Nat} {lexeme : List Char} {token : Token} (nonempty : lexeme ≠ [])
    (spells : Spells lexeme (some token)) : scan line 0 lexeme = .ok [{ token, line }] := by
  have scanned := @scan_next line _ _ _ (spells.longest_alone nonempty) spells
  rw [List.append_nil, scan_nil] at scanned
  exact scanned

theorem exists_munches (text : List Char) : ∃ lexemes stop, Munches text lexemes stop := by
  -- Every lexeme takes at least one character, so the remaining text gets shorter.
  generalize isLength : text.length = remaining
  induction remaining using Nat.strongRecOn generalizing text with
  | ind remaining ih =>
      cases found : longestMatch rules text with
      | none => exact ⟨[], text, Munches.stuck (longestMatch_none_stuck found)⟩
      | some best =>
          obtain ⟨rule, length⟩ := best
          obtain ⟨positive, within, _⟩ := longestMatch_eq_some found
          have shorter : (text.drop length).length < remaining := by
            rw [List.length_drop]
            omega
          obtain ⟨lexemes, stop, munches⟩ := ih _ shorter (text.drop length) rfl
          refine ⟨text.take length :: lexemes, stop, ?_⟩
          have split := Munches.next (longestMatch_some_longest found).1 munches
          rwa [List.take_append_drop] at split

theorem Munches.exists_stand {text stop : List Char} {lexemes : List (List Char)}
    (munches : Munches text lexemes stop) (line : Nat) : ∃ tokens, Stand line lexemes tokens := by
  induction munches generalizing line with
  | stuck _ => exact ⟨[], Stand.nil⟩
  | @next lexeme rest lexemes stop longest _ ih =>
      obtain ⟨tokens, stand⟩ := ih (line + lexeme.count '\n')
      obtain ⟨token?, spells⟩ := longest.isLexeme
      cases token? with
      | none => exact ⟨tokens, Stand.passed spells stand⟩
      | some token => exact ⟨{ token, line } :: tokens, Stand.token spells stand⟩

def outcome (line : Nat) (tokens : List Located) (stop : List Char) :
    Except Error (List Located) :=
  match stop with
  | [] => .ok tokens
  | c :: _ => .error { line, fault := .unexpected (.character c) }

theorem scan_of_munches {text stop : List Char} {lexemes : List (List Char)} {line : Nat}
    {tokens : List Located} (munches : Munches text lexemes stop)
    (stand : Stand line lexemes tokens) :
    scan line 0 text = outcome (line + lexemes.flatten.count '\n') tokens stop := by
  induction munches generalizing line tokens with
  | @stuck text stuck =>
      cases stand
      cases text with
      | nil => exact scan_nil
      | cons c rest => exact scan_stuck stuck
  | @next lexeme rest lexemes stop longest _ ih =>
      have lines : line + (lexeme :: lexemes).flatten.count '\n' =
          line + lexeme.count '\n' + lexemes.flatten.count '\n' := by
        rw [List.flatten_cons, List.count_append, Nat.add_assoc]
      rw [lines]
      cases stand with
      | passed spells stand =>
          rw [scan_next longest spells, ih stand]
          rfl
      | token spells stand =>
          rw [scan_next longest spells, ih stand]
          cases stop <;> rfl

/-- A text is split into the longest lexemes, and its tokens are what these stand for. If the
splitting ends before the text does, the first character left over is reported. -/
theorem tokenize_splits_longest (source : String) :
    (∀ tokens, tokenize source = .ok tokens ↔
      ∃ lexemes, Munches source.toList lexemes [] ∧ Stand 1 lexemes tokens) ∧
    ∀ error, tokenize source = .error error ↔
      ∃ lexemes c rest, Munches source.toList lexemes (c :: rest) ∧
        error = { line := 1 + lexemes.flatten.count '\n',
                  fault := .unexpected (.character c) } := by
  obtain ⟨lexemes, stop, munches⟩ := exists_munches source.toList
  obtain ⟨tokens, stand⟩ := munches.exists_stand 1
  have scanned := scan_of_munches munches stand
  constructor
  · intro expected
    constructor
    · intro tokenized
      cases stop with
      | nil =>
          obtain rfl := Except.ok.inj (scanned.symm.trans tokenized)
          exact ⟨lexemes, munches, stand⟩
      | cons c rest =>
          have impossible := scanned.symm.trans tokenized
          simp [outcome] at impossible
    · rintro ⟨others, otherMunches, otherStand⟩
      exact scan_of_munches otherMunches otherStand
  · intro error
    constructor
    · intro tokenized
      cases stop with
      | nil =>
          have impossible := scanned.symm.trans tokenized
          simp [outcome] at impossible
      | cons c rest =>
          exact ⟨lexemes, c, rest, munches, (Except.error.inj (scanned.symm.trans tokenized)).symm⟩
    · rintro ⟨others, c, rest, otherMunches, rfl⟩
      obtain ⟨_, otherStand⟩ := otherMunches.exists_stand 1
      exact scan_of_munches otherMunches otherStand

end WhileLang.Lexicon
