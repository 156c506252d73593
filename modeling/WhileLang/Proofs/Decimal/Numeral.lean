import WhileLang.Proofs.Lexemes

/-!
Numerals by their parts. Whatever a layout with a plain ending writes for a decimal is a numeral of
the lexicon, and the decimal read from it is rounded like the one that was written: moving the
point is made up for by the power of ten, and zeros at either end of the digits do not count.
-/

namespace WhileLang

open Pattern

namespace Decimal

theorem digitsValue_zeros (count : Nat) : digitsValue (Layout.zeros count) = 0 :=
  Nat.ofDigitChars_replicate_zero.trans (Nat.mul_zero _)

theorem code_zero (exponent : Int) : code ⟨0, exponent⟩ = 0 := if_pos rfl

theorem digitsValue_toDigits (value : Nat) : digitsValue (Nat.toDigits 10 value) = value :=
  Nat.ofDigitChars_ten_toDigits

end Decimal

/-- A row of digits with a point behind the first `place` of them, and perhaps a power of ten. -/
structure Numeral where
  digits : List Char
  place : Nat
  power? : Option Int
  nonempty : digits ≠ []
  placePositive : 0 < place
  allDigits : ∀ c ∈ digits, c.isDigit = true

namespace Numeral

def pointText (fraction : List Char) : List Char :=
  if fraction.isEmpty then [] else '.' :: fraction

theorem pointText_nil : pointText [] = [] := rfl

theorem pointText_of_ne_nil {fraction : List Char} (nonempty : fraction ≠ []) :
    pointText fraction = '.' :: fraction :=
  if_neg (by rwa [List.isEmpty_iff])

def powerText : Option Int → List Char
  | none => []
  | some power => 'e' :: (if power < 0 then '-' else '+') :: Nat.toDigits 10 power.natAbs

def text (numeral : Numeral) : List Char :=
  numeral.digits.take numeral.place ++
    (pointText (numeral.digits.drop numeral.place) ++ powerText numeral.power?)

theorem text_of_length_le {numeral : Numeral} (short : numeral.digits.length ≤ numeral.place) :
    numeral.text = numeral.digits ++ powerText numeral.power? := by
  rw [text, List.take_of_length_le short, List.drop_of_length_le short, pointText_nil,
    List.nil_append]

theorem text_of_place_lt {numeral : Numeral} (long : numeral.place < numeral.digits.length) :
    numeral.text = numeral.digits.take numeral.place ++
      '.' :: (numeral.digits.drop numeral.place ++ powerText numeral.power?) := by
  have someFraction : numeral.digits.drop numeral.place ≠ [] := by
    rw [ne_eq, List.drop_eq_nil_iff]
    exact Nat.not_le_of_lt long
  rw [text, pointText_of_ne_nil someFraction, List.cons_append]

def decimal (numeral : Numeral) : Decimal where
  coefficient := Decimal.digitsValue numeral.digits
  exponent := numeral.power?.getD 0 - (numeral.digits.length - numeral.place : Nat)

theorem matches_digits {digits : List Char} (nonempty : digits ≠ [])
    (allDigits : ∀ c ∈ digits, c.isDigit = true) : Matches Lexicon.digits digits :=
  matches_oneOrMore_one_iff.mpr ⟨nonempty, allDigits⟩

theorem matches_pointText {fraction : List Char}
    (allDigits : ∀ c ∈ fraction, c.isDigit = true) :
    Matches (.optional Lexicon.fraction) (pointText fraction) := by
  cases fraction with
  | nil => exact .second .empty
  | cons first others =>
      have isDigits := matches_digits (List.cons_ne_nil first others) allDigits
      exact .first (@Matches.followedBy _ _ ['.'] _ (.one rfl) isDigits)

theorem matches_powerText (power? : Option Int) :
    Matches (.optional Lexicon.exponent) (powerText power?) := by
  cases power? with
  | none => exact .second .empty
  | some power =>
      have isSign : Matches (.optional (.one fun c => c == '+' || c == '-'))
          [if power < 0 then '-' else '+'] := .first (.one (by split <;> rfl))
      have isPower : Matches Lexicon.digits (Nat.toDigits 10 power.natAbs) :=
        matches_digits Nat.toDigits_ne_nil fun c member =>
          Nat.isDigit_of_mem_toDigits (by decide) (by decide) member
      exact .first (@Matches.followedBy _ _ ['e'] _ (.one rfl) (.followedBy isSign isPower))

theorem matches_text (numeral : Numeral) : Matches Lexicon.wholeNumeral numeral.text := by
  obtain ⟨digits, place, power?, nonempty, placePositive, allDigits⟩ := numeral
  have isWhole : Matches Lexicon.digits (digits.take place) := by
    refine matches_digits ?_ fun c member => allDigits c (List.mem_of_mem_take member)
    rw [ne_eq, List.take_eq_nil_iff]
    rintro (isZero | isEmpty)
    · exact Nat.ne_of_gt placePositive isZero
    · exact nonempty isEmpty
  have isFraction : Matches (.optional Lexicon.fraction) (pointText (digits.drop place)) :=
    matches_pointText fun c member => allDigits c (List.mem_of_mem_drop member)
  exact .followedBy isWhole (.followedBy isFraction (matches_powerText power?))

theorem power_powerText (power? : Option Int) :
    Decimal.Power (powerText power?) (power?.getD 0) := by
  cases power? with
  | none => exact .absent
  | some power =>
      have allDigits : ∀ c ∈ Nat.toDigits 10 power.natAbs, c.isDigit = true := fun c member =>
        Nat.isDigit_of_mem_toDigits (by decide) (by decide) member
      rw [powerText, Option.getD_some]
      split
      · rename_i negative
        have isPower := Decimal.Power.minus (.inl rfl) allDigits
        rwa [Nat.ofDigitChars_ten_toDigits, Int.ofNat_natAbs_of_nonpos negative.le, neg_neg]
          at isPower
      · rename_i nonneg
        have isPower := Decimal.Power.plus (.inl rfl) allDigits
        rwa [Nat.ofDigitChars_ten_toDigits, Int.natAbs_of_nonneg (Int.not_lt.mp nonneg)] at isPower

theorem ofNumeral_parts {whole fraction : List Char}
    (wholeDigits : ∀ c ∈ whole, c.isDigit = true)
    (fractionDigits : ∀ c ∈ fraction, c.isDigit = true) (power? : Option Int) :
    Decimal.ofNumeral (whole ++ (pointText fraction ++ powerText power?)) =
      ⟨Decimal.digitsValue (whole ++ fraction), power?.getD 0 - fraction.length⟩ := by
  have isPower := power_powerText power?
  by_cases isWhole : fraction = []
  · subst isWhole
    rw [pointText_nil, List.nil_append, List.append_nil,
      Decimal.ofNumeral_whole wholeDigits isPower, List.length_nil, Int.natCast_zero, Int.sub_zero]
  · rw [pointText_of_ne_nil isWhole, List.cons_append,
      Decimal.ofNumeral_fraction wholeDigits fractionDigits isPower]

theorem ofNumeral_text (numeral : Numeral) :
    Decimal.ofNumeral numeral.text = numeral.decimal := by
  obtain ⟨digits, place, power?, nonempty, placePositive, allDigits⟩ := numeral
  rw [text, ofNumeral_parts (fun c member => allDigits c (List.mem_of_mem_take member))
    (fun c member => allDigits c (List.mem_of_mem_drop member)), List.take_append_drop,
    List.length_drop]
  rfl

end Numeral

namespace Layout

theorem isDigit_of_mem_zeros {count : Nat} {c : Char} (member : c ∈ zeros count) :
    c.isDigit = true := by
  rw [List.eq_of_mem_replicate member]
  rfl

theorem digits_eq_significant (digits : List Char) :
    ∃ dropped, digits = significant digits ++ zeros dropped := by
  have split := List.takeWhile_append_dropWhile (p := (· == '0')) (l := digits.reverse)
  have allZero : digits.reverse.takeWhile (· == '0') =
      zeros (digits.reverse.takeWhile (· == '0')).length := by
    apply List.eq_replicate_of_mem
    intro c member
    exact beq_iff_eq.mp (List.all_eq_true.mp List.all_takeWhile c member)
  rw [allZero] at split
  refine ⟨(digits.reverse.takeWhile (· == '0')).length, ?_⟩
  rw [← List.reverse_inj, List.reverse_append, significant, List.reverse_reverse, zeros,
    List.reverse_replicate]
  exact split.symm

theorem digitsValue_append_zeros (digits : List Char) (count : Nat) :
    Decimal.digitsValue (digits ++ zeros count) = Decimal.digitsValue digits * 10 ^ count := by
  rw [Decimal.digitsValue_append, Decimal.digitsValue_zeros, Nat.add_zero, zeros,
    List.length_replicate]

theorem significant_ne_nil {value : Nat} (nonzero : value ≠ 0) :
    significant (Nat.toDigits 10 value) ≠ [] := by
  obtain ⟨dropped, isDigits⟩ := digits_eq_significant (Nat.toDigits 10 value)
  intro isEmpty
  rw [isEmpty, List.nil_append] at isDigits
  rw [← Decimal.digitsValue_toDigits value, isDigits, Decimal.digitsValue_zeros] at nonzero
  exact nonzero rfl

theorem isDigit_of_mem_significant {value : Nat} {c : Char}
    (member : c ∈ significant (Nat.toDigits 10 value)) : c.isDigit = true := by
  obtain ⟨dropped, isDigits⟩ := digits_eq_significant (Nat.toDigits 10 value)
  have isDigit : c ∈ Nat.toDigits 10 value := isDigits ▸ List.mem_append_left _ member
  exact Nat.isDigit_of_mem_toDigits (by decide) (by decide) isDigit

/-- The significant digits, the first of them standing for the same power of ten, are rounded like
all the digits. -/
theorem code_significant {coefficient : Nat} (nonzero : coefficient ≠ 0) (exponent : Int) :
    Decimal.code ⟨Decimal.digitsValue (significant (Nat.toDigits 10 coefficient)),
      exponent + ((Nat.toDigits 10 coefficient).length - 1 : Nat) + 1 -
        (significant (Nat.toDigits 10 coefficient)).length⟩ =
      Decimal.code ⟨coefficient, exponent⟩ := by
  obtain ⟨dropped, isDigits⟩ := digits_eq_significant (Nat.toDigits 10 coefficient)
  have positive := List.length_pos_iff.mpr (significant_ne_nil nonzero)
  have value := Decimal.digitsValue_toDigits coefficient
  have length := congrArg List.length isDigits
  rw [isDigits, digitsValue_append_zeros] at value
  rw [List.length_append, zeros, List.length_replicate] at length
  have isExponent : exponent + ((Nat.toDigits 10 coefficient).length - 1 : Nat) + 1 -
      (significant (Nat.toDigits 10 coefficient)).length = exponent + dropped := by omega
  rw [isExponent, ← Decimal.code_shift, value]

def Reads (text : List Char) (x : Decimal) : Prop :=
  ∃ numeral : Numeral, text = numeral.text ∧ numeral.decimal.code = x.code

theorem Reads.congr {text : List Char} {x y : Decimal} (reads : Reads text x)
    (same : x.code = y.code) : Reads text y := by
  obtain ⟨numeral, isText, isCode⟩ := reads
  exact ⟨numeral, isText, isCode.trans same⟩

section

variable {layout : Layout} {digits : List Char} (nonempty : digits ≠ [])
  (allDigits : ∀ c ∈ digits, c.isDigit = true)
include nonempty allDigits

theorem reads_behind_zeros (before : Nat) :
    Reads ('0' :: '.' :: zeros before ++ digits)
      ⟨Decimal.digitsValue digits, -(before + digits.length : Nat)⟩ := by
  let numeral : Numeral :=
    { digits := zeros (before + 1) ++ digits, place := 1, power? := none
      nonempty := by simp [nonempty]
      placePositive := Nat.one_pos
      allDigits := List.forall_mem_append.mpr ⟨fun _ => isDigit_of_mem_zeros, allDigits⟩ }
  have isLength : numeral.digits.length = before + 1 + digits.length := by
    simp [numeral, zeros]
  have positive := List.length_pos_iff.mpr nonempty
  have long : 1 < numeral.digits.length := by omega
  refine ⟨numeral, ?_, ?_⟩
  · rw [Numeral.text_of_place_lt long]
    simp [Numeral.powerText, numeral, zeros, List.replicate_succ]
  · have isValue : Decimal.digitsValue numeral.digits = Decimal.digitsValue digits := by
      rw [Decimal.digitsValue_append, Decimal.digitsValue_zeros, Nat.zero_mul, Nat.zero_add]
    have isExponent : numeral.decimal.exponent = -(before + digits.length : Nat) := by
      simp only [Numeral.decimal, isLength, numeral, Option.getD_none]
      omega
    rw [← isExponent, ← isValue]
    rfl

theorem reads_before_zeros (count : Nat) :
    Reads (digits ++ zeros count) ⟨Decimal.digitsValue digits, count⟩ := by
  let numeral : Numeral :=
    { digits := digits ++ zeros count, place := (digits ++ zeros count).length, power? := none
      nonempty := by simp [nonempty]
      placePositive := List.length_pos_iff.mpr (by simp [nonempty])
      allDigits := List.forall_mem_append.mpr ⟨allDigits, fun _ => isDigit_of_mem_zeros⟩ }
  -- The point stands behind the last digit, so it is not written.
  refine ⟨numeral, ?_, ?_⟩
  · rw [Numeral.text_of_length_le (Nat.le_refl _)]
    simp [Numeral.powerText, numeral]
  · simp only [Numeral.decimal, numeral, digitsValue_append_zeros, Option.getD_none, Nat.sub_self]
    exact (Decimal.code_shift _ _ _).trans (by simp)

theorem reads_around_point {place : Nat} (placePositive : 0 < place)
    (inside : place < digits.length) :
    Reads (digits.take place ++ '.' :: digits.drop place)
      ⟨Decimal.digitsValue digits, place - digits.length⟩ := by
  let numeral : Numeral := { digits, place, power? := none, nonempty, placePositive, allDigits }
  have isExponent : (0 : Int) - (digits.length - place : Nat) = place - digits.length := by omega
  refine ⟨numeral, ?_, ?_⟩
  · rw [Numeral.text_of_place_lt inside]
    simp [Numeral.powerText, numeral]
  · simp only [Numeral.decimal, numeral, Option.getD_none, isExponent]

theorem reads_inPlace (plain : layout.wholeEnding = "") (leading : Int) :
    Reads (layout.inPlace digits leading)
      ⟨Decimal.digitsValue digits, leading + 1 - digits.length⟩ := by
  cases leading with
  | negSucc before =>
      have isExponent : Int.negSucc before + 1 - digits.length =
          -(before + digits.length : Nat) := by omega
      rw [isExponent]
      exact reads_behind_zeros nonempty allDigits before
  | ofNat leading =>
      rw [inPlace]
      split
      · rename_i isWhole
        have isExponent : Int.ofNat leading + 1 - digits.length =
            (leading + 1 - digits.length : Nat) := by
          simp only [Int.ofNat_eq_natCast]
          omega
        rw [isExponent, plain, String.toList_empty, List.append_nil]
        exact reads_before_zeros nonempty allDigits _
      · rename_i notWhole
        exact reads_around_point nonempty allDigits (Nat.succ_pos leading)
          (Nat.lt_of_not_le notWhole)

theorem reads_withPower (signed : layout.plus = "+") (leading : Int) :
    Reads (layout.withPower digits leading)
      ⟨Decimal.digitsValue digits, leading + 1 - digits.length⟩ := by
  let numeral : Numeral :=
    { digits, place := 1, power? := some leading, nonempty, placePositive := Nat.one_pos
      allDigits }
  have positive := List.length_pos_iff.mpr nonempty
  have isExponent : leading - (digits.length - 1 : Nat) = leading + 1 - digits.length := by omega
  refine ⟨numeral, ?_, ?_⟩
  · by_cases negative : leading < 0
    · simp [withPower, Numeral.text, numeral, Numeral.pointText, Numeral.powerText, negative]
    · simp [withPower, Numeral.text, numeral, Numeral.pointText, Numeral.powerText, negative,
        signed]
  · simp only [Numeral.decimal, numeral, Option.getD_some, isExponent]

end

theorem reads_writeDecimal {layout : Layout} (plain : layout.wholeEnding = "")
    (signed : layout.plus = "+") (x : Decimal) : Reads (layout.writeDecimal x) x := by
  obtain ⟨coefficient, exponent⟩ := x
  by_cases isZero : coefficient = 0
  · subst isZero
    rw [writeDecimal, if_pos rfl, plain, String.toList_empty]
    have nonempty : zeros 1 ≠ [] := List.cons_ne_nil _ _
    refine (reads_before_zeros nonempty (fun _ => isDigit_of_mem_zeros) 0).congr ?_
    rw [Decimal.digitsValue_zeros, Decimal.code_zero, Decimal.code_zero]
  · simp only [writeDecimal, if_neg isZero]
    have nonempty := significant_ne_nil isZero
    split
    · exact (reads_inPlace nonempty (fun _ => isDigit_of_mem_significant) plain _).congr
        (code_significant isZero exponent)
    · exact (reads_withPower nonempty (fun _ => isDigit_of_mem_significant) signed _).congr
        (code_significant isZero exponent)

end Layout

end WhileLang
