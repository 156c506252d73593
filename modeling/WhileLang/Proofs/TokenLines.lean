import WhileLang.Proofs.Splitting

/-!
The lines of tokens are the lines of the text. A scan is followed with all the text that it has
behind it, so that every token has a place, the text in front of its first character. Its line is
found by counting the line ends there, whatever lexemes they belong to, and so is the line of the
character at which a scan gets stuck.
-/

namespace WhileLang.Lexicon

/-- `Lays before text places front stop`: with `before` behind it, a scan goes through the text from
one longest lexeme to the next, up to `stop`, where none begins, with `front` behind it. The places
are those of the tokens on the way. -/
inductive Lays : List Char → List Char → List (List Char × Token) → List Char → List Char → Prop
  | stops {before text} : (∀ lexeme token?, lexeme <+: text → Spells lexeme token? → lexeme = []) →
      Lays before text [] before text
  | passes {before lexeme rest places front stop} : Longest lexeme rest → Spells lexeme none →
      Lays (before ++ lexeme) rest places front stop →
      Lays before (lexeme ++ rest) places front stop
  | takes {before lexeme rest token places front stop} : Longest lexeme rest →
      Spells lexeme (some token) → Lays (before ++ lexeme) rest places front stop →
      Lays before (lexeme ++ rest) ((before, token) :: places) front stop

def lineBehind (text : List Char) : Nat := 1 + text.count '\n'

theorem lineBehind_append (before lexeme : List Char) :
    lineBehind (before ++ lexeme) = lineBehind before + lexeme.count '\n' := by
  simp only [lineBehind, List.count_append]
  omega

theorem Munches.exists_lays {text stop : List Char} {lexemes : List (List Char)}
    (munches : Munches text lexemes stop) (before : List Char) :
    ∃ places front, Lays before text places front stop := by
  induction munches generalizing before with
  | stuck stuck => exact ⟨[], before, .stops stuck⟩
  | @next lexeme rest lexemes stop longest _ ih =>
      obtain ⟨places, front, lays⟩ := ih (before ++ lexeme)
      obtain ⟨token?, spells⟩ := longest.isLexeme
      cases token? with
      | none => exact ⟨places, front, .passes longest spells lays⟩
      | some token => exact ⟨(before, token) :: places, front, .takes longest spells lays⟩

theorem Lays.append_eq {before text front stop : List Char} {places : List (List Char × Token)}
    (lays : Lays before text places front stop) : before ++ text = front ++ stop := by
  induction lays with
  | stops _ => rfl
  | passes _ _ _ ih | takes _ _ _ ih => rw [← ih, List.append_assoc]

theorem Lays.exists_lexeme {before text front stop : List Char}
    {places : List (List Char × Token)} (lays : Lays before text places front stop)
    {place : List Char × Token} (member : place ∈ places) :
    ∃ lexeme rest, before ++ text = place.1 ++ (lexeme ++ rest) ∧
      Spells lexeme (some place.2) := by
  induction lays with
  | stops _ => cases member
  | passes _ _ _ ih =>
      rw [← List.append_assoc]
      exact ih member
  | @takes before lexeme rest token places front stop _ spells _ ih =>
      rcases List.mem_cons.mp member with rfl | member
      · exact ⟨lexeme, rest, rfl, spells⟩
      · rw [← List.append_assoc]
        exact ih member

def locate (place : List Char × Token) : Located where
  token := place.2
  line := lineBehind place.1

theorem scan_of_lays {before text front stop : List Char} {places : List (List Char × Token)}
    (lays : Lays before text places front stop) :
    scan (lineBehind before) 0 text = outcome (lineBehind front) (places.map locate) stop := by
  induction lays with
  | @stops before text stuck =>
      cases text with
      | nil => exact scan_nil
      | cons c rest => exact scan_stuck stuck
  | passes longest spells _ ih =>
      rw [scan_next longest spells, ← lineBehind_append, ih]
      rfl
  | @takes before lexeme rest token places front stop longest spells _ ih =>
      rw [scan_next longest spells, ← lineBehind_append, ih]
      cases stop <;> rfl

theorem outcome_eq_ok_iff {line : Nat} {tokens expected : List Located} {stop : List Char} :
    outcome line tokens stop = .ok expected ↔ stop = [] ∧ expected = tokens := by
  cases stop <;> simp [outcome, eq_comm]

theorem outcome_eq_error_iff {line : Nat} {tokens : List Located} {stop : List Char}
    {error : Error} :
    outcome line tokens stop = .error error ↔
      ∃ c rest, stop = c :: rest ∧ error = { line, fault := .unexpected (.character c) } := by
  cases stop <;> simp [outcome, eq_comm]

/-- The line of a token is one more than the number of line ends in front of its first character,
and that of an error one more than those in front of the character that is reported. -/
theorem tokenize_lines_counted (source : String) :
    (∀ tokens, tokenize source = .ok tokens ↔
      ∃ places, Lays [] source.toList places source.toList [] ∧
        (∀ place ∈ places, ∃ lexeme rest, source.toList = place.1 ++ (lexeme ++ rest) ∧
          Spells lexeme (some place.2)) ∧
        tokens = places.map fun place => ⟨place.2, 1 + place.1.count '\n'⟩) ∧
    ∀ error, tokenize source = .error error ↔
      ∃ places before c rest, Lays [] source.toList places before (c :: rest) ∧
        source.toList = before ++ c :: rest ∧
        error = { line := 1 + before.count '\n', fault := .unexpected (.character c) } := by
  obtain ⟨lexemes, stop, munches⟩ := exists_munches source.toList
  obtain ⟨places, front, lays⟩ := munches.exists_lays []
  constructor
  · intro tokens
    constructor
    · intro tokenized
      obtain ⟨rfl, rfl⟩ := outcome_eq_ok_iff.mp ((scan_of_lays lays).symm.trans tokenized)
      have isAll := lays.append_eq
      rw [List.nil_append, List.append_nil] at isAll
      exact ⟨places, isAll ▸ lays, fun _ member => lays.exists_lexeme member, rfl⟩
    · rintro ⟨others, otherLays, _, rfl⟩
      exact scan_of_lays otherLays
  · intro error
    constructor
    · intro tokenized
      obtain ⟨c, rest, rfl, rfl⟩ :=
        outcome_eq_error_iff.mp ((scan_of_lays lays).symm.trans tokenized)
      exact ⟨places, front, c, rest, lays, lays.append_eq, rfl⟩
    · rintro ⟨others, before, c, rest, otherLays, _, rfl⟩
      exact scan_of_lays otherLays

end WhileLang.Lexicon
