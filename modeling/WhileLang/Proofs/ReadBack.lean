import WhileLang.Proofs.Decimal.Bits
import WhileLang.Proofs.Decimal.Numeral
import WhileLang.Proofs.Splitting
import WhileLang.Value

/-!
A printed number reads back. What is printed for a finite number is one numeral, with a minus in
front of it if the number is negative; the numeral is taken whole by the lexicon and is rounded to
the absolute value, bit by bit.
-/

namespace WhileLang

namespace Lexicon

theorem spells_minus : Spells ['-'] (some (.operator .subtract)) := by
  have isWord : ("-", Token.operator .subtract) ∈ words := by decide
  exact Spells.word isWord

theorem words_minus : ∀ entry ∈ words, entry.1.toList.head? = some '-' →
    entry.1.toList = ['-'] := by decide +kernel

theorem longest_minus (rest : List Char) : Longest ['-'] rest := by
  refine ⟨by simp, ⟨_, spells_minus⟩, ?_⟩
  intro front token? isFront spells
  cases front with
  | nil => simp
  | cons c others =>
      obtain rfl : c = '-' := (List.cons_prefix_cons.mp isFront).1
      obtain ⟨spelling, token, isWord, isText, _⟩ :=
        spells.word_of_head (by decide) (by decide) (by decide)
      have isMinus := words_minus _ isWord (by rw [isText]; rfl)
      exact Nat.le_of_eq (congrArg List.length (isText.symm.trans isMinus))

theorem scan_minus {line : Nat} {lexeme : List Char} {token : Token} (nonempty : lexeme ≠ [])
    (spells : Spells lexeme (some token)) :
    scan line 0 ('-' :: lexeme) =
      .ok [{ token := .operator .subtract, line }, { token, line }] := by
  have scanned := @scan_next line _ _ _ (longest_minus lexeme) spells_minus
  rw [scan_alone nonempty spells] at scanned
  exact scanned

end Lexicon

open Lexicon

theorem spells_shortest {code : Nat} (finite : code < Magnitude.infinity) :
    let digits := Value.layout.writeDecimal (Magnitude.shortest code)
    digits ≠ [] ∧ Spells digits (some (.number (Float.ofBits (UInt64.ofNat code)))) := by
  obtain ⟨numeral, isText, isCode⟩ :=
    @Layout.reads_writeDecimal Value.layout rfl rfl (Magnitude.shortest code)
  have isNumber : (Decimal.ofNumeral numeral.text).toFloat = Float.ofBits (UInt64.ofNat code) := by
    rw [numeral.ofNumeral_text, Decimal.toFloat, isCode, Magnitude.code_shortest finite]
  have spells := spells_numeral (List.mem_cons_self ..) numeral.matches_text
  obtain ⟨c, rest, isCons, _⟩ := numeral_head (List.mem_cons_self ..) numeral.matches_text
  rw [isNumber] at spells
  simp only [isText]
  exact ⟨isCons ▸ List.cons_ne_nil c rest, spells⟩

theorem text_number {number : Float} (finite : number.isFinite = true) :
    (Value.number number).text =
      let digits := String.ofList
        (Value.layout.writeDecimal (Magnitude.shortest (number.toBits.toNat % Layout.signBit)))
      if Layout.signBit < number.toBits.toNat then "-" ++ digits else digits := by
  have below := (Magnitude.isFinite_iff number).mp finite
  simp only [Value.text, Layout.write, if_neg (Nat.not_lt_of_lt below), if_neg (Nat.ne_of_lt below)]

/-- For every finite number the printed text is scanned into its absolute value, with a minus in
front exactly if the number is less than zero. The absolute value has the bits of the number
without the sign. -/
theorem tokenize_text_number {number : Float} (finite : number.isFinite = true) :
    number.abs.toBits.toNat = number.toBits.toNat % Layout.signBit ∧
    (0 ≤ number ∨ number < 0) ∧
    (0 ≤ number → tokenize (Value.number number).text =
      .ok [{ token := .number number.abs, line := 1 }]) ∧
    (number < 0 → tokenize (Value.number number).text =
      .ok [{ token := .operator .subtract, line := 1 },
        { token := .number number.abs, line := 1 }]) := by
  have below := (Magnitude.isFinite_iff number).mp finite
  obtain ⟨nonempty, spells⟩ := spells_shortest below
  rw [← Magnitude.abs_eq_ofBits finite] at spells
  refine ⟨?_, ?_, ?_, ?_⟩
  · rw [Magnitude.abs_eq_ofBits finite, Magnitude.toNat_toBits_ofBits below]
  · rw [Magnitude.zero_le_iff finite, Magnitude.lt_zero_iff finite]
    exact (Decidable.em _).symm
  · intro nonnegative
    rw [Magnitude.zero_le_iff finite] at nonnegative
    rw [text_number finite, if_neg nonnegative, tokenize, String.toList_ofList]
    exact scan_alone nonempty spells
  · intro negative
    rw [Magnitude.lt_zero_iff finite] at negative
    have isText (digits : List Char) : ("-" ++ String.ofList digits).toList = '-' :: digits := by
      simp
    rw [text_number finite, if_pos negative, tokenize, isText]
    exact scan_minus nonempty spells

theorem tokenize_text_number_forms :
    tokenize (Value.number (-0.0)).text = .ok [{ token := .number 0.0, line := 1 }] ∧
    tokenize (Value.number 0.00125).text = .ok [{ token := .number 0.00125, line := 1 }] ∧
    tokenize (Value.number (-2.5e22)).text =
      .ok [{ token := .operator .subtract, line := 1 }, { token := .number 2.5e22, line := 1 }] :=
  ⟨(tokenize_text_number (by decide +kernel)).2.2.1 (by decide +kernel),
    (tokenize_text_number (by decide +kernel)).2.2.1 (by decide +kernel),
    (tokenize_text_number (by decide +kernel)).2.2.2 (by decide +kernel)⟩

end WhileLang
