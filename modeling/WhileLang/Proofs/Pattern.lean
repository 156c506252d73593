import WhileLang.Pattern

/-!
The matcher agrees with the meaning of patterns: reading a character leaves the pattern of what may
follow it, and the length that `longest` finds is that of the longest matching front.
-/

namespace WhileLang.Pattern

@[simp] theorem not_matches_never {text : List Char} : ¬ Matches never text := by
  intro matched
  cases matched

@[simp] theorem matches_empty_iff {text : List Char} : Matches empty text ↔ text = [] := by
  constructor
  · intro matched
    cases matched
    rfl
  · rintro rfl
    exact Matches.empty

@[simp] theorem matches_one_iff {accepts : Char → Bool} {text : List Char} :
    Matches (one accepts) text ↔ ∃ c, accepts c = true ∧ text = [c] := by
  constructor
  · intro matched
    cases matched with
    | one accepted => exact ⟨_, accepted, rfl⟩
  · rintro ⟨c, accepted, rfl⟩
    exact Matches.one accepted

@[simp] theorem matches_either_iff {first second : Pattern} {text : List Char} :
    Matches (either first second) text ↔ Matches first text ∨ Matches second text := by
  constructor
  · intro matched
    cases matched with
    | first matched => exact Or.inl matched
    | second matched => exact Or.inr matched
  · rintro (matched | matched)
    · exact Matches.first matched
    · exact Matches.second matched

theorem matches_followedBy_iff {first second : Pattern} {text : List Char} :
    Matches (followedBy first second) text ↔
      ∃ front back, text = front ++ back ∧ Matches first front ∧ Matches second back := by
  constructor
  · intro matched
    cases matched with
    | followedBy firstMatched secondMatched => exact ⟨_, _, rfl, firstMatched, secondMatched⟩
  · rintro ⟨front, back, rfl, firstMatched, secondMatched⟩
    exact Matches.followedBy firstMatched secondMatched

theorem Matches.many_cases {repeated : Pattern} {text : List Char}
    (matched : Matches (many repeated) text) :
    text = [] ∨ ∃ front back, front ≠ [] ∧ text = front ++ back ∧ Matches repeated front ∧
      Matches (many repeated) back := by
  generalize isMany : many repeated = pattern at matched
  induction matched with
  | done => exact Or.inl rfl
  | @again _ front back frontMatched backMatched _ backCases =>
      obtain rfl := Pattern.many.inj isMany
      by_cases isEmpty : front = []
      · subst front
        exact backCases rfl
      · exact Or.inr ⟨front, back, isEmpty, rfl, frontMatched, backMatched⟩
  | _ => exact Pattern.noConfusion isMany

theorem matches_nil_iff {pattern : Pattern} :
    Matches pattern [] ↔ pattern.acceptsEmpty = true := by
  induction pattern with
  | never => simp [acceptsEmpty]
  | empty => simp [acceptsEmpty]
  | one accepts => simp [acceptsEmpty]
  | either first second firstIh secondIh => simp [acceptsEmpty, firstIh, secondIh]
  | followedBy first second firstIh secondIh =>
      simp only [acceptsEmpty, Bool.and_eq_true, ← firstIh, ← secondIh, matches_followedBy_iff]
      constructor
      · rintro ⟨front, back, split, firstMatched, secondMatched⟩
        obtain ⟨rfl, rfl⟩ := List.nil_eq_append_iff.mp split
        exact ⟨firstMatched, secondMatched⟩
      · rintro ⟨firstMatched, secondMatched⟩
        exact ⟨[], [], rfl, firstMatched, secondMatched⟩
  | many repeated _ => simpa [acceptsEmpty] using Matches.done

theorem matches_choice_iff {first second : Pattern} {text : List Char} :
    Matches (choice first second) text ↔ Matches first text ∨ Matches second text := by
  unfold choice
  split <;> simp

theorem matches_sequence_iff {first second : Pattern} {text : List Char} :
    Matches (sequence first second) text ↔ Matches (followedBy first second) text := by
  unfold sequence
  split
  · simp [matches_followedBy_iff]
  · rw [matches_followedBy_iff]
    constructor
    · intro matched
      exact ⟨[], text, rfl, Matches.empty, matched⟩
    · rintro ⟨front, back, rfl, frontEmpty, matched⟩
      obtain rfl := matches_empty_iff.mp frontEmpty
      exact matched
  · rfl

theorem matches_followedBy_cons_iff {first second : Pattern} {c : Char} {text : List Char} :
    Matches (followedBy first second) (c :: text) ↔
      (Matches first [] ∧ Matches second (c :: text)) ∨
        ∃ front back, text = front ++ back ∧ Matches first (c :: front) ∧ Matches second back := by
  rw [matches_followedBy_iff]
  constructor
  · rintro ⟨front, back, split, firstMatched, secondMatched⟩
    cases front with
    | nil => exact Or.inl ⟨firstMatched, by simpa [split] using secondMatched⟩
    | cons d front =>
        obtain ⟨rfl, rfl⟩ := List.cons.inj split
        exact Or.inr ⟨front, back, rfl, firstMatched, secondMatched⟩
  · rintro (⟨firstMatched, secondMatched⟩ | ⟨front, back, rfl, firstMatched, secondMatched⟩)
    · exact ⟨[], c :: text, rfl, firstMatched, secondMatched⟩
    · exact ⟨c :: front, back, rfl, firstMatched, secondMatched⟩

theorem matches_many_cons_iff {repeated : Pattern} {c : Char} {text : List Char} :
    Matches (many repeated) (c :: text) ↔
      ∃ front back, text = front ++ back ∧ Matches repeated (c :: front) ∧
        Matches (many repeated) back := by
  constructor
  · intro matched
    rcases matched.many_cases with isEmpty | ⟨front, back, nonempty, split, frontMatched,
      backMatched⟩
    · exact absurd isEmpty (by simp)
    · cases front with
      | nil => exact absurd rfl nonempty
      | cons d front =>
          obtain ⟨rfl, rfl⟩ := List.cons.inj split
          exact ⟨front, back, rfl, frontMatched, backMatched⟩
  · rintro ⟨front, back, rfl, frontMatched, backMatched⟩
    exact Matches.again frontMatched backMatched

theorem matches_after_iff {pattern : Pattern} {c : Char} {text : List Char} :
    Matches (pattern.after c) text ↔ Matches pattern (c :: text) := by
  induction pattern generalizing text with
  | never => simp [after]
  | empty => simp [after]
  | one accepts =>
      rw [after, matches_one_iff]
      by_cases accepted : accepts c = true
      · rw [if_pos accepted, matches_empty_iff]
        constructor
        · rintro rfl
          exact ⟨c, accepted, rfl⟩
        · rintro ⟨d, _, same⟩
          exact (List.cons.inj same).2
      · rw [if_neg accepted]
        simp only [not_matches_never, false_iff, not_exists, not_and]
        intro d otherAccepted same
        exact accepted ((List.cons.inj same).1 ▸ otherAccepted)
  | either first second firstIh secondIh =>
      rw [after, matches_choice_iff, firstIh, secondIh, matches_either_iff]
  | followedBy first second firstIh secondIh =>
      have direct : Matches (sequence (first.after c) second) text ↔
          ∃ front back, text = front ++ back ∧ Matches first (c :: front) ∧
            Matches second back := by
        rw [matches_sequence_iff, matches_followedBy_iff]
        simp only [firstIh]
      rw [matches_followedBy_cons_iff, matches_nil_iff]
      by_cases mayBeEmpty : first.acceptsEmpty = true
      · simp only [after, mayBeEmpty, if_true, matches_choice_iff, direct, secondIh, true_and]
        exact or_comm
      · simp only [after, mayBeEmpty, direct, false_and, false_or, Bool.false_eq_true, if_false]
  | many repeated ih =>
      rw [after, matches_sequence_iff, matches_followedBy_iff, matches_many_cons_iff]
      simp only [ih]

theorem longest_nil {pattern : Pattern} :
    pattern.longest [] = if pattern.acceptsEmpty then some 0 else none := by
  cases pattern <;> rfl

theorem longest_cons {pattern : Pattern} {c : Char} {rest : List Char} :
    pattern.longest (c :: rest) =
      match (pattern.after c).longest rest with
      | some length => some (length + 1)
      | none => if pattern.acceptsEmpty then some 0 else none := by
  cases pattern with
  | never => cases rest <;> rfl
  | _ => rfl

theorem longest_eq_none {pattern : Pattern} {text : List Char}
    (found : pattern.longest text = none) {front : List Char} (isFront : front <+: text) :
    ¬ Matches pattern front := by
  induction text generalizing pattern front with
  | nil =>
      obtain rfl := List.prefix_nil.mp isFront
      rw [matches_nil_iff]
      simpa [longest_nil] using found
  | cons c rest ih =>
      rw [longest_cons] at found
      cases after : (pattern.after c).longest rest with
      | some length => simp [after] at found
      | none =>
          cases front with
          | nil =>
              rw [matches_nil_iff]
              simpa [after] using found
          | cons d front =>
              obtain ⟨rfl, restFront⟩ := List.cons_prefix_cons.mp isFront
              rw [← matches_after_iff]
              exact ih after restFront

theorem longest_eq_some {pattern : Pattern} {text : List Char} {length : Nat}
    (found : pattern.longest text = some length) :
    length ≤ text.length ∧ Matches pattern (text.take length) ∧
      ∀ front, front <+: text → Matches pattern front → front.length ≤ length := by
  induction text generalizing pattern length with
  | nil =>
      rw [longest_nil] at found
      split at found
      · rename_i mayBeEmpty
        obtain rfl := Option.some.inj found
        refine ⟨Nat.le_refl _, matches_nil_iff.mpr mayBeEmpty, ?_⟩
        intro front isFront _
        simp [List.prefix_nil.mp isFront]
      · simp at found
  | cons c rest ih =>
      rw [longest_cons] at found
      cases after : (pattern.after c).longest rest with
      | some remaining =>
          simp only [after, Option.some.injEq] at found
          subst length
          obtain ⟨within, matched, longest⟩ := ih after
          refine ⟨by simpa using within, by simpa [matches_after_iff] using matched, ?_⟩
          intro front isFront frontMatched
          cases front with
          | nil => exact Nat.zero_le _
          | cons d front =>
              obtain ⟨rfl, restFront⟩ := List.cons_prefix_cons.mp isFront
              rw [← matches_after_iff] at frontMatched
              exact Nat.succ_le_succ (longest front restFront frontMatched)
      | none =>
          simp only [after] at found
          split at found
          · rename_i mayBeEmpty
            obtain rfl := Option.some.inj found
            refine ⟨Nat.zero_le _, matches_nil_iff.mpr mayBeEmpty, ?_⟩
            intro front isFront frontMatched
            cases front with
            | nil => exact Nat.le_refl _
            | cons d front =>
                obtain ⟨rfl, restFront⟩ := List.cons_prefix_cons.mp isFront
                rw [← matches_after_iff] at frontMatched
                exact absurd frontMatched (longest_eq_none after restFront)
          · simp at found

def accepts : Pattern → List Char → Bool
  | pattern, [] => pattern.acceptsEmpty
  | pattern, c :: rest => (pattern.after c).accepts rest

theorem accepts_iff {pattern : Pattern} {text : List Char} :
    pattern.accepts text = true ↔ Matches pattern text := by
  induction text generalizing pattern with
  | nil => rw [accepts, matches_nil_iff]
  | cons c rest ih => rw [accepts, ih, matches_after_iff]

instance (pattern : Pattern) (text : List Char) : Decidable (Matches pattern text) :=
  decidable_of_iff _ accepts_iff

@[simp] theorem matches_char_iff {expected : Char} {text : List Char} :
    Matches (char expected) text ↔ text = [expected] := by
  simp [char]

@[simp] theorem matches_literal_iff {expected text : List Char} :
    Matches (literal expected) text ↔ text = expected := by
  induction expected generalizing text with
  | nil => exact matches_empty_iff
  | cons c rest ih =>
      rw [literal, matches_followedBy_iff]
      constructor
      · rintro ⟨front, back, rfl, frontMatched, backMatched⟩
        rw [matches_char_iff.mp frontMatched, ih.mp backMatched]
        rfl
      · rintro rfl
        exact ⟨[c], rest, rfl, matches_char_iff.mpr rfl, ih.mpr rfl⟩

@[simp] theorem matches_many_one_iff {accepts : Char → Bool} {text : List Char} :
    Matches (many (one accepts)) text ↔ ∀ c ∈ text, accepts c = true := by
  induction text with
  | nil => simpa using Matches.done
  | cons c rest ih =>
      rw [← matches_after_iff, after, after]
      by_cases accepted : accepts c = true
      · rw [if_pos accepted, sequence, ih]
        simp [accepted]
      · rw [if_neg accepted, sequence]
        simp [accepted]

theorem matches_oneOrMore_one_iff {accepts : Char → Bool} {text : List Char} :
    Matches (oneOrMore (one accepts)) text ↔ text ≠ [] ∧ ∀ c ∈ text, accepts c = true := by
  rw [oneOrMore, matches_followedBy_iff]
  constructor
  · rintro ⟨front, back, rfl, frontMatched, backMatched⟩
    obtain ⟨c, accepted, rfl⟩ := matches_one_iff.mp frontMatched
    simpa [accepted] using backMatched
  · rintro ⟨nonempty, accepted⟩
    obtain ⟨c, rest, rfl⟩ := List.exists_cons_of_ne_nil nonempty
    simp only [List.mem_cons, forall_eq_or_imp] at accepted
    exact ⟨[c], rest, rfl, Matches.one accepted.1, matches_many_one_iff.mpr accepted.2⟩

def mentions (c : Char) : Pattern → Bool
  | never => false
  | empty => false
  | one accepts => accepts c
  | either first second => first.mentions c || second.mentions c
  | followedBy first second => first.mentions c || second.mentions c
  | many repeated => repeated.mentions c

theorem Matches.mentions {pattern : Pattern} {text : List Char} (matched : Matches pattern text)
    {c : Char} (member : c ∈ text) : pattern.mentions c = true := by
  induction matched with
  | empty | done => simp at member
  | one accepted =>
      rw [List.mem_singleton.mp member]
      exact accepted
  | first _ ih => simp [Pattern.mentions, ih member]
  | second _ ih => simp [Pattern.mentions, ih member]
  | followedBy _ _ frontIh backIh =>
      rcases List.mem_append.mp member with inFront | inBack
      · simp [Pattern.mentions, frontIh inFront]
      · simp [Pattern.mentions, backIh inBack]
  | again _ _ frontIh backIh =>
      rcases List.mem_append.mp member with inFront | inBack
      · exact frontIh inFront
      · exact backIh inBack

end WhileLang.Pattern
