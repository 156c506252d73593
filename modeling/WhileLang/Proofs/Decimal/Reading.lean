import WhileLang.Lexicon
import WhileLang.Proofs.Decimal.Nearest
import WhileLang.Proofs.Pattern

/-!
The rational that a numeral denotes, by its parts: the digits in front of the point, those behind it
and the power of ten. Every numeral of the lexicon denotes one, and the number read from it is the
nearest one to that.
-/

namespace WhileLang.Decimal

open Pattern

/-- `Power tail power`: the tail of a numeral multiplies it by `10 ^ power`. -/
inductive Power : List Char → ℤ → Prop
  | absent : Power [] 0
  | plain {mark digits} : mark = 'e' ∨ mark = 'E' → (∀ c ∈ digits, c.isDigit = true) →
      Power (mark :: digits) (Nat.ofDigitChars 10 digits 0)
  | plus {mark digits} : mark = 'e' ∨ mark = 'E' → (∀ c ∈ digits, c.isDigit = true) →
      Power (mark :: '+' :: digits) (Nat.ofDigitChars 10 digits 0)
  | minus {mark digits} : mark = 'e' ∨ mark = 'E' → (∀ c ∈ digits, c.isDigit = true) →
      Power (mark :: '-' :: digits) (-Nat.ofDigitChars 10 digits 0)

/-- `Denotes text x`: the text is a numeral and stands for `x`, exactly. -/
inductive Denotes : List Char → ℚ → Prop
  | whole {digits tail power} : (∀ c ∈ digits, c.isDigit = true) → Power tail power →
      Denotes (digits ++ tail) (Nat.ofDigitChars 10 digits 0 * 10 ^ power)
  | fraction {whole fraction tail power} : (∀ c ∈ whole, c.isDigit = true) →
      (∀ c ∈ fraction, c.isDigit = true) → Power tail power →
      Denotes (whole ++ '.' :: (fraction ++ tail))
        ((Nat.ofDigitChars 10 whole 0 +
          Nat.ofDigitChars 10 fraction 0 / 10 ^ fraction.length) * 10 ^ power)

theorem digitsValue_eq (digits : List Char) :
    digitsValue digits = Nat.ofDigitChars 10 digits 0 := rfl

theorem digitsValue_append (front back : List Char) :
    digitsValue (front ++ back) = digitsValue front * 10 ^ back.length + digitsValue back := by
  rw [digitsValue_eq, Nat.ofDigitChars_append, Nat.ofDigitChars_eq_ofDigitChars_zero, Nat.mul_comm]
  rfl

section

variable {whole fraction tail text : List Char} {power : ℤ} {x : ℚ}

theorem Power.eq_nil_or_mark (isPower : Power tail power) :
    tail = [] ∨ ∃ mark rest, tail = mark :: rest ∧ (mark = 'e' ∨ mark = 'E') := by
  cases isPower with
  | absent => exact .inl rfl
  | plain isMark | plus isMark | minus isMark => exact .inr ⟨_, _, rfl, isMark⟩

theorem Power.tailExponent_eq (isPower : Power tail power) : tailExponent tail = power := by
  cases isPower with
  | absent => rfl
  | @plain mark digits isMark allDigits =>
      refine (if_pos isMark).trans ?_
      split
      · exact absurd (allDigits '-' (by simp)) (by decide)
      · rfl
      · rfl
  | plus isMark | minus isMark => exact if_pos isMark

theorem takeWhile_isDigit (allDigits : ∀ c ∈ whole, c.isDigit = true)
    (isPower : Power tail power) :
    (whole ++ tail).takeWhile Char.isDigit = whole ∧
      (whole ++ tail).dropWhile Char.isDigit = tail := by
  rw [List.takeWhile_append_of_pos allDigits, List.dropWhile_append_of_pos allDigits]
  rcases isPower.eq_nil_or_mark with rfl | ⟨mark, rest, rfl, rfl | rfl⟩ <;> simp

theorem ofNumeral_whole (allDigits : ∀ c ∈ whole, c.isDigit = true)
    (isPower : Power tail power) : ofNumeral (whole ++ tail) = ⟨digitsValue whole, power⟩ := by
  obtain ⟨taken, dropped⟩ := takeWhile_isDigit allDigits isPower
  have isExponent := isPower.tailExponent_eq
  simp only [ofNumeral, taken, dropped]
  split
  · rename_i rest
    rcases isPower.eq_nil_or_mark with isNil | ⟨mark, rest, isTail, isMark⟩
    · cases isNil
    · obtain ⟨rfl, _⟩ := List.cons.inj isTail
      exact absurd isMark (by decide)
  · rw [isExponent]

theorem ofNumeral_fraction (wholeDigits : ∀ c ∈ whole, c.isDigit = true)
    (fractionDigits : ∀ c ∈ fraction, c.isDigit = true) (isPower : Power tail power) :
    ofNumeral (whole ++ '.' :: (fraction ++ tail)) =
      ⟨digitsValue (whole ++ fraction), power - fraction.length⟩ := by
  obtain ⟨taken, dropped⟩ := takeWhile_isDigit fractionDigits isPower
  have notDigit : ¬ '.'.isDigit = true := by decide
  simp only [ofNumeral, List.takeWhile_append_of_pos wholeDigits,
    List.dropWhile_append_of_pos wholeDigits, List.takeWhile_cons_of_neg notDigit,
    List.dropWhile_cons_of_neg notDigit, List.append_nil, taken, dropped, isPower.tailExponent_eq]

theorem Denotes.value_ofNumeral (denotes : Denotes text x) : (ofNumeral text).value = x := by
  cases denotes with
  | whole allDigits isPower =>
      rw [ofNumeral_whole allDigits isPower]
      rfl
  | @fraction whole fraction tail power wholeDigits fractionDigits isPower =>
      rw [ofNumeral_fraction wholeDigits fractionDigits isPower, value, digitsValue_append,
        zpow_sub₀ (by norm_num), zpow_natCast]
      rw [digitsValue_eq, digitsValue_eq]
      push_cast
      field_simp

theorem exists_power (matched : Matches (.optional Lexicon.exponent) tail) :
    ∃ power, Power tail power := by
  rcases matches_either_iff.mp matched with matched | matched
  · obtain ⟨_, _, rfl, markMatched, restMatched⟩ := matches_followedBy_iff.mp matched
    obtain ⟨_, digits, rfl, signMatched, digitsMatched⟩ := matches_followedBy_iff.mp restMatched
    obtain ⟨mark, isMark, rfl⟩ := matches_one_iff.mp markMatched
    have allDigits := (matches_oneOrMore_one_iff.mp digitsMatched).2
    simp only [Bool.or_eq_true, beq_iff_eq] at isMark
    rcases matches_either_iff.mp signMatched with signMatched | signMatched
    · obtain ⟨sign, isSign, rfl⟩ := matches_one_iff.mp signMatched
      simp only [Bool.or_eq_true, beq_iff_eq] at isSign
      rcases isSign with rfl | rfl
      · exact ⟨_, .plus isMark allDigits⟩
      · exact ⟨_, .minus isMark allDigits⟩
    · obtain rfl := matches_empty_iff.mp signMatched
      exact ⟨_, .plain isMark allDigits⟩
  · obtain rfl := matches_empty_iff.mp matched
    exact ⟨0, .absent⟩

theorem exists_denotes_fraction (wholeDigits : ∀ c ∈ whole, c.isDigit = true)
    (fractionMatched : Matches Lexicon.fraction fraction)
    (tailMatched : Matches (.optional Lexicon.exponent) tail) :
    ∃ x, Denotes (whole ++ (fraction ++ tail)) x := by
  obtain ⟨_, digits, rfl, pointMatched, digitsMatched⟩ :=
    matches_followedBy_iff.mp fractionMatched
  obtain rfl := matches_char_iff.mp pointMatched
  obtain ⟨power, isPower⟩ := exists_power tailMatched
  exact ⟨_, .fraction wholeDigits (matches_oneOrMore_one_iff.mp digitsMatched).2 isPower⟩

theorem exists_denotes {pattern : Pattern}
    (isNumeral : pattern ∈ [Lexicon.wholeNumeral, Lexicon.bareFraction])
    (matched : Matches pattern text) : ∃ x, Denotes text x := by
  simp only [List.mem_cons, List.not_mem_nil, or_false] at isNumeral
  rcases isNumeral with rfl | rfl
  · obtain ⟨_, _, rfl, wholeMatched, restMatched⟩ := matches_followedBy_iff.mp matched
    obtain ⟨_, _, rfl, fractionMatched, tailMatched⟩ := matches_followedBy_iff.mp restMatched
    have wholeDigits := (matches_oneOrMore_one_iff.mp wholeMatched).2
    rcases matches_either_iff.mp fractionMatched with fractionMatched | isEmpty
    · exact exists_denotes_fraction wholeDigits fractionMatched tailMatched
    · obtain rfl := matches_empty_iff.mp isEmpty
      obtain ⟨power, isPower⟩ := exists_power tailMatched
      exact ⟨_, .whole wholeDigits isPower⟩
  · obtain ⟨_, _, rfl, fractionMatched, tailMatched⟩ := matches_followedBy_iff.mp matched
    exact @exists_denotes_fraction [] _ _ (by simp) fractionMatched tailMatched

/-- The number read from a numeral is the nearest one to what the numeral denotes. -/
theorem Denotes.roundsTo_iff (denotes : Denotes text x) {number : Float} :
    Double.RoundsTo x number ↔ number = (ofNumeral text).toFloat := by
  have rounded := (ofNumeral text).roundsTo_toFloat
  rw [denotes.value_ofNumeral] at rounded
  constructor
  · intro otherRounded
    exact otherRounded.unique rounded
  · rintro rfl
    exact rounded

end

end WhileLang.Decimal
