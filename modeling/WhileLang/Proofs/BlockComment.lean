import WhileLang.Proofs.Splitting

/-!
Where block comments end. The inside of a comment is read in parts, a star always together with the
character behind it. So the first `*/` ends the comment if an even number of stars stands in front
of it, and is read as a part of the comment if that number is odd.
-/

namespace WhileLang.Lexicon

open Pattern

inductive Filled : List Char → Prop
  | nil : Filled []
  | other {c rest} : c ≠ '*' → Filled rest → Filled (c :: rest)
  | star {c rest} : c ≠ '/' → Filled rest → Filled ('*' :: c :: rest)

def trailingStars (text : List Char) : Nat := (text.reverse.takeWhile (· == '*')).length

def later (lines : Nat) : Except Error (List Located) → Except Error (List Located)
  | .ok tokens => .ok (tokens.map fun located => { located with line := located.line + lines })
  | .error error => .error { error with line := error.line + lines }

theorem filled_of_matches {text : List Char} (matched : Matches (.many blockCommentPart) text) :
    Filled text := by
  generalize isInside : Pattern.many blockCommentPart = pattern at matched
  induction matched with
  | done => exact Filled.nil
  | @again _ front back frontMatched _ _ backFilled =>
      obtain rfl := Pattern.many.inj isInside
      rcases matches_either_iff.mp frontMatched with single | pair
      · obtain ⟨c, accepted, rfl⟩ := matches_one_iff.mp single
        exact Filled.other (by simpa using accepted) (backFilled rfl)
      · obtain ⟨star, second, rfl, starMatched, secondMatched⟩ := matches_followedBy_iff.mp pair
        obtain rfl := matches_char_iff.mp starMatched
        obtain ⟨c, accepted, rfl⟩ := matches_one_iff.mp secondMatched
        exact Filled.star (by simpa using accepted) (backFilled rfl)
  | _ => exact Pattern.noConfusion isInside

theorem matches_of_filled {text : List Char} (filled : Filled text) :
    Matches (.many blockCommentPart) text := by
  induction filled with
  | nil => exact Matches.done
  | @other c rest different _ ih =>
      have part : Matches blockCommentPart [c] :=
        Matches.first (Matches.one (by simpa using different))
      exact Matches.again part ih
  | @star c rest different _ ih =>
      have part : Matches blockCommentPart (['*'] ++ [c]) :=
        Matches.second (Matches.followedBy (matches_char_iff.mpr rfl)
          (Matches.one (by simpa using different)))
      exact Matches.again part ih

theorem matches_blockComment_iff {text : List Char} :
    Matches blockComment text ↔
      ∃ inside, text = ['/', '*'] ++ (inside ++ ['*', '/']) ∧ Filled inside := by
  constructor
  · intro matched
    obtain ⟨front, back, rfl, frontMatched, backMatched⟩ := matches_followedBy_iff.mp matched
    obtain ⟨inside, ending, rfl, insideMatched, endingMatched⟩ :=
      matches_followedBy_iff.mp backMatched
    obtain rfl := matches_literal_iff.mp frontMatched
    obtain rfl := matches_literal_iff.mp endingMatched
    exact ⟨inside, rfl, filled_of_matches insideMatched⟩
  · rintro ⟨inside, rfl, filled⟩
    exact Matches.followedBy (matches_literal_iff.mpr rfl)
      (Matches.followedBy (matches_of_filled filled) (matches_literal_iff.mpr rfl))

theorem Filled.unique {inside other rest otherRest : List Char} (filled : Filled inside)
    (otherFilled : Filled other)
    (same : inside ++ '*' :: '/' :: rest = other ++ '*' :: '/' :: otherRest) : inside = other := by
  induction filled generalizing other with
  | nil =>
      cases otherFilled with
      | nil => rfl
      | other different _ => exact absurd (List.cons.inj same).1.symm different
      | star different _ =>
          exact absurd (List.cons.inj (List.cons.inj same).2).1.symm different
  | @other c inside different _ ih =>
      cases otherFilled with
      | nil => exact absurd (List.cons.inj same).1 different
      | other _ otherFilled =>
          obtain ⟨rfl, sameRest⟩ := List.cons.inj same
          rw [ih otherFilled sameRest]
      | star _ _ => exact absurd (List.cons.inj same).1 different
  | @star c inside different _ ih =>
      cases otherFilled with
      | nil => exact absurd (List.cons.inj (List.cons.inj same).2).1 different
      | other otherDifferent _ => exact absurd (List.cons.inj same).1.symm otherDifferent
      | star _ otherFilled =>
          obtain ⟨rfl, sameRest⟩ := List.cons.inj (List.cons.inj same).2
          rw [ih otherFilled sameRest]

theorem trailingStars_cons_of_ne {c : Char} {rest : List Char} (different : c ≠ '*') :
    trailingStars (c :: rest) = trailingStars rest := by
  simp only [trailingStars, List.reverse_cons, List.takeWhile_append]
  split
  · rename_i allStars
    simp [different, allStars]
  · rfl

theorem trailingStars_star_of_ne {c : Char} {rest : List Char} (different : c ≠ '*') :
    trailingStars ('*' :: c :: rest) = trailingStars rest := by
  have stops :
      ((rest.reverse ++ [c]).takeWhile (· == '*')).length ≠ (rest.reverse ++ [c]).length := by
    intro sameLength
    have allStars := List.all_takeWhile (p := (· == '*')) (l := rest.reverse ++ [c])
    rw [(List.takeWhile_prefix _).eq_of_length sameLength] at allStars
    have isStar := List.all_eq_true.mp allStars c (by simp)
    exact different (by simpa using isStar)
  calc trailingStars ('*' :: c :: rest)
      = trailingStars (c :: rest) := by
        simp only [trailingStars, List.reverse_cons]
        rw [List.takeWhile_append, if_neg stops]
    _ = trailingStars rest := trailingStars_cons_of_ne different

theorem trailingStars_two_stars {rest : List Char} :
    trailingStars ('*' :: '*' :: rest) % 2 = trailingStars rest % 2 := by
  simp only [trailingStars, List.reverse_cons, List.append_assoc, List.takeWhile_append]
  split
  · rename_i allStars
    simp [allStars]
  · rfl

/-- `Unclosed body`: a `*/` put behind the text is its first. -/
def Unclosed (body : List Char) : Prop :=
  ∀ front back, body ++ ['*', '/'] = front ++ ['*', '/'] ++ back → back = []

theorem unclosed_nil : Unclosed [] := by
  intro front back split
  have lengths := congrArg List.length split
  simp only [List.nil_append, List.length_append, List.length_cons, List.length_nil] at lengths
  exact List.length_eq_zero_iff.mp (by omega)

theorem unclosed_cons_iff {c : Char} {rest : List Char} :
    Unclosed (c :: rest) ↔ (c = '*' → rest.head? ≠ some '/') ∧ Unclosed rest := by
  constructor
  · intro unclosed
    constructor
    · rintro rfl head
      obtain ⟨rest, rfl⟩ := List.head?_eq_some_iff.mp head
      have empty := unclosed [] (rest ++ ['*', '/']) rfl
      simp at empty
    · intro front back split
      exact unclosed (c :: front) back (congrArg (c :: ·) split)
  · rintro ⟨apart, unclosed⟩ front back split
    cases front with
    | nil =>
        obtain ⟨isStar, second⟩ := List.cons.inj split
        cases rest with
        | nil => exact absurd (List.cons.inj second).1 (by decide)
        | cons d rest => exact absurd (congrArg some (List.cons.inj second).1) (apart isStar)
    | cons _ front => exact unclosed front back (List.cons.inj split).2

theorem filled_iff_even {body : List Char} (unclosed : Unclosed body) :
    Filled body ↔ trailingStars body % 2 = 0 := by
  -- The cases are those of `Filled`, and a last star with nothing behind it.
  match body, unclosed with
  | [], _ => simpa [trailingStars] using Filled.nil
  | [c], _ =>
      by_cases isStar : c = '*'
      · subst c
        constructor
        · intro filled
          cases filled with
          | other different _ => exact absurd rfl different
        · intro even
          simp [trailingStars] at even
      · rw [trailingStars_cons_of_ne isStar]
        simpa [trailingStars] using Filled.other isStar Filled.nil
  | c :: d :: rest, unclosed =>
      obtain ⟨apart, restUnclosed⟩ := unclosed_cons_iff.mp unclosed
      by_cases isStar : c = '*'
      · subst c
        have sameParity : trailingStars ('*' :: d :: rest) % 2 = trailingStars rest % 2 := by
          by_cases secondStar : d = '*'
          · subst d
            exact trailingStars_two_stars
          · rw [trailingStars_star_of_ne secondStar]
        rw [sameParity, ← filled_iff_even (unclosed_cons_iff.mp restUnclosed).2]
        constructor
        · intro filled
          cases filled with
          | other different _ => exact absurd rfl different
          | star _ restFilled => exact restFilled
        · exact Filled.star (fun isSlash => apart rfl (congrArg some isSlash))
      · rw [trailingStars_cons_of_ne isStar, ← filled_iff_even restUnclosed]
        constructor
        · intro filled
          cases filled with
          | other _ restFilled => exact restFilled
          | star _ _ => exact absurd rfl isStar
        · exact Filled.other isStar
termination_by body.length

theorem words_slash_star : ∀ entry ∈ words, entry.1.toList.take 2 <+: ['/', '*'] →
    entry = ("/", .operator .divide) := by decide +kernel

theorem Spells.slash_star {front text : List Char} {token? : Option Token}
    (spells : Spells front token?) (isFront : front <+: '/' :: '*' :: text) :
    (front = ['/'] ∧ token? = some (.operator .divide)) ∨
      (Matches blockComment front ∧ token? = none) := by
  have head {c : Char} {rest : List Char} (starts : front = c :: rest) : c = '/' := by
    rw [starts] at isFront
    exact (List.cons_prefix_cons.mp isFront).1
  cases spells with
  | @word spelling token isWord =>
      left
      have starts : spelling.toList.take 2 <+: ('/' :: '*' :: text).take 2 :=
        List.prefix_take_iff.mpr
          ⟨(List.take_prefix 2 spelling.toList).trans isFront, List.length_take_le 2 _⟩
      have isSlash := words_slash_star _ isWord starts
      obtain ⟨rfl, rfl⟩ := Prod.mk.inj isSlash
      exact ⟨rfl, rfl⟩
  | numeral isNumeral matched =>
      obtain ⟨c, rest, starts, begins⟩ := numeral_head isNumeral matched
      rw [head starts] at begins
      exact absurd begins (by decide)
  | name matched _ =>
      obtain ⟨c, rest, starts, begins⟩ := name_head matched
      rw [head starts] at begins
      exact absurd begins (by decide)
  | passed isPassed matched =>
      simp only [List.mem_cons, List.not_mem_nil, or_false] at isPassed
      rcases isPassed with rfl | rfl | rfl | rfl
      · obtain ⟨slashes, back, rfl, frontMatched, _⟩ := matches_followedBy_iff.mp matched
        obtain rfl := matches_literal_iff.mp frontMatched
        have second := (List.cons_prefix_cons.mp (List.cons_prefix_cons.mp isFront).2).1
        exact absurd second (by decide)
      · exact Or.inr ⟨matched, rfl⟩
      · exact absurd (head (matches_char_iff.mp matched)) (by decide)
      · obtain ⟨nonempty, allBlank⟩ := matches_oneOrMore_one_iff.mp matched
        obtain ⟨c, rest, starts⟩ := List.exists_cons_of_ne_nil nonempty
        have blank := allBlank c (by rw [starts]; simp)
        rw [head starts] at blank
        exact absurd blank (by decide)

theorem longest_blockComment {body : List Char} (rest : List Char) (filled : Filled body) :
    Longest (['/', '*'] ++ (body ++ ['*', '/'])) rest ∧
      Spells (['/', '*'] ++ (body ++ ['*', '/'])) none := by
  have matched := matches_blockComment_iff.mpr ⟨body, rfl, filled⟩
  have spells := Spells.passed (by simp) matched
  refine ⟨⟨by simp, ⟨none, spells⟩, ?_⟩, spells⟩
  intro front token? isFront frontSpells
  rcases frontSpells.slash_star isFront with ⟨rfl, _⟩ | ⟨frontMatched, _⟩
  · simp
  · obtain ⟨inside, rfl, insideFilled⟩ := matches_blockComment_iff.mp frontMatched
    obtain ⟨back, split⟩ := isFront
    have same : body ++ '*' :: '/' :: rest = inside ++ '*' :: '/' :: back := by
      simpa using split.symm
    obtain rfl := filled.unique insideFilled same
    exact Nat.le_refl _

theorem spells_slash : Spells ['/'] (some (.operator .divide)) := by
  have isWord : ("/", Token.operator .divide) ∈ words := by decide
  exact Spells.word isWord

theorem longest_slash {body : List Char} (unclosed : Unclosed body) (unfilled : ¬ Filled body) :
    Longest ['/'] ('*' :: (body ++ ['*', '/'])) := by
  refine ⟨by simp, ⟨_, spells_slash⟩, ?_⟩
  intro front token? isFront frontSpells
  rcases frontSpells.slash_star isFront with ⟨rfl, _⟩ | ⟨frontMatched, _⟩
  · exact Nat.le_refl _
  · obtain ⟨inside, rfl, insideFilled⟩ := matches_blockComment_iff.mp frontMatched
    obtain ⟨back, split⟩ := isFront
    have same : body ++ ['*', '/'] = inside ++ ['*', '/'] ++ back := by
      simpa using split.symm
    obtain rfl := unclosed inside back same
    rw [List.append_nil] at same
    exact absurd (List.append_cancel_right same ▸ insideFilled) unfilled

theorem Stand.later {line lines : Nat} {lexemes : List (List Char)} {tokens : List Located}
    (stand : Stand line lexemes tokens) :
    Stand (line + lines) lexemes
      (tokens.map fun located => { located with line := located.line + lines }) := by
  induction stand with
  | nil => exact Stand.nil
  | passed spells _ ih =>
      rw [Nat.add_right_comm] at ih
      exact Stand.passed spells ih
  | token spells _ ih =>
      rw [Nat.add_right_comm] at ih
      exact Stand.token spells ih

theorem scan_later {line lines : Nat} {text : List Char} :
    scan (line + lines) 0 text = later lines (scan line 0 text) := by
  obtain ⟨lexemes, stop, munches⟩ := exists_munches text
  obtain ⟨tokens, stand⟩ := munches.exists_stand line
  rw [scan_of_munches munches stand, scan_of_munches munches stand.later, Nat.add_right_comm]
  cases stop <;> rfl

theorem precede_some_ne_nil {line : Nat} {token : Token}
    {following : Except Error (List Located)} : precede line (some token) following ≠ .ok [] := by
  intro empty
  cases following <;> simp [precede, Except.map] at empty

/-- A block comment whose body has no `*/` is passed over, whatever follows it, exactly if an even
number of stars stands before its end. With an odd number it is no comment even at the end of the
source. -/
theorem tokenize_blockComment_iff (body : String)
    (unclosed : Unclosed body.toList) :
    (∀ rest : String, tokenize ("/*" ++ body ++ "*/" ++ rest) =
        later (body.toList.count '\n') (tokenize rest)) ↔
      trailingStars body.toList % 2 = 0 := by
  rw [← filled_iff_even unclosed]
  constructor
  · intro passes
    apply Classical.byContradiction
    intro unfilled
    have isText : ("/*" ++ body ++ "*/" ++ "").toList =
        ['/'] ++ '*' :: (body.toList ++ ['*', '/']) := by simp
    have passed := passes ""
    rw [tokenize, isText, scan_next (longest_slash unclosed unfilled) spells_slash] at passed
    exact precede_some_ne_nil passed
  · intro filled rest
    obtain ⟨longest, spells⟩ := longest_blockComment rest.toList filled
    have lines : (['/', '*'] ++ (body.toList ++ ['*', '/'])).count '\n' =
        body.toList.count '\n' := by simp
    have isText : ("/*" ++ body ++ "*/" ++ rest).toList =
        ['/', '*'] ++ (body.toList ++ ['*', '/']) ++ rest.toList := by simp
    rw [tokenize, isText, scan_next longest spells, lines]
    exact scan_later

theorem tokenize_blockComment_stars :
    (∀ rest : String, tokenize ("/*" ++ "*\n**" ++ "*/" ++ rest) = later 1 (tokenize rest)) ∧
      ¬ ∀ rest : String, tokenize ("/*" ++ "*" ++ "*/" ++ rest) = later 0 (tokenize rest) := by
  have evenUnclosed : Unclosed "*\n**".toList := by
    simp [unclosed_cons_iff, unclosed_nil]
  have oddUnclosed : Unclosed "*".toList := by
    simp [unclosed_cons_iff, unclosed_nil]
  constructor
  · exact (tokenize_blockComment_iff "*\n**" evenUnclosed).mpr (by decide)
  · intro passes
    have even := (tokenize_blockComment_iff "*" oddUnclosed).mp passes
    exact absurd even (by decide)

end WhileLang.Lexicon
