import Mathlib.Algebra.Group.Nat.Defs
import WhileLang.Decimal.Layout

/-!
What the bits of a double precision number say about it. Without its highest bit the pattern is the
code of the absolute value; the number is finite if that code is, and negative if the highest bit
is set and the code is not zero.
-/

namespace WhileLang.Magnitude

open Float.Model (UnpackedFloat)
open Float.Model.Format (binary64)
open Float.Model.UnpackedFloat

theorem signBit_eq : Layout.signBit = 2 ^ 63 := rfl

theorem infinity_eq : infinity = 2047 * 2 ^ 52 := rfl

theorem binade_eq : binade = 2 ^ 52 := rfl

theorem toNat_unpackExponent (bits : BitVec 64) :
    (@unpackExponent binary64 bits).toNat = bits.toNat / 2 ^ 52 % 2 ^ 11 := by
  rw [← Nat.shiftRight_eq_div_pow]
  rfl

theorem toNat_unpackMantissa (bits : BitVec 64) :
    (@unpackMantissa binary64 bits).toNat = bits.toNat % 2 ^ 52 := rfl

theorem toNat_unpackSign (bits : BitVec 64) :
    (@unpackSign binary64 bits).toNat = bits.toNat / 2 ^ 63 := by
  have inRange := bits.isLt
  have isBit : (@unpackSign binary64 bits).toNat = bits.toNat / 2 ^ 63 % 2 ^ 1 := by
    rw [← Nat.shiftRight_eq_div_pow]
    rfl
  omega

theorem toNat_append (front : BitVec 1) (back : BitVec 52) :
    (front ++ back).toNat = front.toNat * 2 ^ 52 + back.toNat := by
  rw [BitVec.toNat_append, ← Nat.shiftLeft_add_eq_or_of_lt back.isLt, Nat.shiftLeft_eq]

theorem toNat_packComponents (exponent : BitVec 11) (mantissa : BitVec 52) :
    (packComponents binary64 .positive exponent mantissa).toNat =
      exponent.toNat * 2 ^ 52 + mantissa.toNat := by
  change (0#1 ++ exponent ++ mantissa).toNat = _
  rw [BitVec.toNat_append, ← Nat.shiftLeft_add_eq_or_of_lt mantissa.isLt, Nat.shiftLeft_eq,
    BitVec.toNat_append, ← Nat.shiftLeft_add_eq_or_of_lt exponent.isLt, BitVec.toNat_ofNat,
    Nat.zero_mod, Nat.zero_shiftLeft, Nat.zero_add]

theorem unpackExponent_eq_neg_one_iff (bits : BitVec 64) :
    @unpackExponent binary64 bits = -1#11 ↔ infinity ≤ bits.toNat % Layout.signBit := by
  rw [← BitVec.toNat_inj, toNat_unpackExponent, signBit_eq, infinity_eq]
  change _ = 2047 ↔ _
  omega

theorem unpackExponent_eq_zero_iff (bits : BitVec 64) :
    @unpackExponent binary64 bits = 0#11 ↔ bits.toNat % Layout.signBit < binade := by
  rw [← BitVec.toNat_inj, toNat_unpackExponent, signBit_eq, binade_eq]
  change _ = 0 ↔ _
  omega

theorem ofBitVec_unpackSign (bits : BitVec 64) :
    Sign.ofBitVec (@unpackSign binary64 bits) =
      if bits.toNat < Layout.signBit then .positive else .negative := by
  change (if @unpackSign binary64 bits = 0#1 then Sign.positive else Sign.negative) = _
  simp only [← BitVec.toNat_inj, toNat_unpackSign, signBit_eq]
  congr 1
  exact propext (Nat.div_eq_zero_iff.trans (or_iff_right (by decide)))

theorem unpack_of_infinity_le {bits : BitVec 64}
    (reached : infinity ≤ bits.toNat % Layout.signBit) :
    (UnpackedFloat.unpack binary64 bits).isFinite = false := by
  rw [← unpackExponent_eq_neg_one_iff] at reached
  delta UnpackedFloat.unpack
  rw [if_pos reached]
  split <;> rfl

theorem unpack_of_zero {bits : BitVec 64} (isZero : bits.toNat % Layout.signBit = 0) :
    UnpackedFloat.unpack binary64 bits =
      .zero (if bits.toNat < Layout.signBit then .positive else .negative) := by
  have small : bits.toNat % Layout.signBit < binade := by
    rw [isZero]
    decide
  have finite : ¬ infinity ≤ bits.toNat % Layout.signBit := by
    rw [isZero]
    decide
  have noMantissa : @unpackMantissa binary64 bits = 0#52 := by
    rw [← BitVec.toNat_inj, toNat_unpackMantissa]
    rw [signBit_eq] at isZero
    change _ = 0
    omega
  rw [← unpackExponent_eq_zero_iff] at small
  rw [← unpackExponent_eq_neg_one_iff] at finite
  delta UnpackedFloat.unpack
  rw [if_neg finite, if_pos small, dif_pos noMantissa, ofBitVec_unpackSign]

/-- The digits of a finite code, the highest of which is not stored from `binade` on. -/
def significand (code : Nat) : Nat := if code < binade then code else binade + code % binade

/-- The power of two that the last digit of a finite code stands for. -/
def power (code : Nat) : Int := (max (code / binade) 1 : Nat) - 1075

theorem finite_congr {sign : Sign} {mantissa other : Nat} {exponent otherExponent : Int}
    (positive : 0 < mantissa) (sameMantissa : mantissa = other)
    (sameExponent : exponent = otherExponent) :
    ∃ otherPositive, UnpackedFloat.finite sign mantissa exponent positive =
      .finite sign other otherExponent otherPositive := by
  subst sameMantissa sameExponent
  exact ⟨positive, rfl⟩

theorem unpack_of_pos {bits : BitVec 64} (positive : 0 < bits.toNat % Layout.signBit)
    (finite : bits.toNat % Layout.signBit < infinity) :
    ∃ mantissaPositive, UnpackedFloat.unpack binary64 bits =
      .finite (if bits.toNat < Layout.signBit then .positive else .negative)
        (significand (bits.toNat % Layout.signBit)) (power (bits.toNat % Layout.signBit))
        mantissaPositive := by
  have isExponent := toNat_unpackExponent bits
  have isMantissa := toNat_unpackMantissa bits
  have finiteExponent : ¬ @unpackExponent binary64 bits = -1#11 := by
    rw [unpackExponent_eq_neg_one_iff]
    exact Nat.not_le_of_lt finite
  delta UnpackedFloat.unpack
  rw [if_neg finiteExponent, ofBitVec_unpackSign]
  by_cases small : bits.toNat % Layout.signBit < binade
  · have noExponent := (unpackExponent_eq_zero_iff bits).mpr small
    have isCode : bits.toNat % 2 ^ 52 = bits.toNat % Layout.signBit := by
      rw [signBit_eq, binade_eq] at *
      omega
    -- A subnormal number. It is not zero, so something is left in the low bits.
    have someMantissa : @unpackMantissa binary64 bits ≠ 0#52 := by
      intro noMantissa
      rw [noMantissa, isCode] at isMantissa
      exact Nat.ne_of_gt positive isMantissa.symm
    rw [if_pos noExponent, dif_neg someMantissa]
    refine finite_congr _ ?_ ?_
    · rw [significand, if_pos small, isMantissa, isCode]
    · rw [noExponent, power, Nat.div_eq_of_lt small]
      rfl
  · rw [if_neg (mt (unpackExponent_eq_zero_iff bits).mp small)]
    rw [infinity_eq] at finite
    refine finite_congr _ ?_ ?_
    · rw [significand, if_neg small, toNat_append, isMantissa]
      rw [signBit_eq, binade_eq] at *
      change 1 * 2 ^ 52 + _ = _
      omega
    · rw [power, isExponent]
      change ((_ : Nat) : Int) - (1023 + 52) = _
      rw [signBit_eq, binade_eq] at *
      omega

theorem isFinite_iff (number : Float) :
    number.isFinite = true ↔ number.toBits.toNat % Layout.signBit < infinity := by
  constructor
  · intro isFinite
    apply Nat.lt_of_not_le
    intro reached
    exact Bool.false_ne_true ((unpack_of_infinity_le reached).symm.trans isFinite)
  · intro finite
    rcases Nat.eq_zero_or_pos (number.toBits.toNat % Layout.signBit) with isZero | positive
    · exact congrArg UnpackedFloat.isFinite (unpack_of_zero isZero)
    · obtain ⟨mantissaPositive, unpacked⟩ := unpack_of_pos positive finite
      exact congrArg UnpackedFloat.isFinite unpacked

theorem compare_zero {number : Float} (finite : number.isFinite = true) :
    ∃ order, number.toModel.unpack.compare (.zero .positive) = some order ∧
      UnpackedFloat.compare (.zero .positive) number.toModel.unpack = some order.swap ∧
      (order = .lt ↔ Layout.signBit < number.toBits.toNat) := by
  rw [isFinite_iff] at finite
  have atMost := number.toBits.toNat_lt
  have isUnpacked : number.toModel.unpack =
      UnpackedFloat.unpack binary64 number.toBits.toBitVec := rfl
  rcases Nat.eq_zero_or_pos (number.toBits.toNat % Layout.signBit) with isZero | positive
  · have unsigned : ¬ Layout.signBit < number.toBits.toNat := by
      rw [signBit_eq] at isZero ⊢
      omega
    rw [isUnpacked, unpack_of_zero isZero]
    exact ⟨.eq, rfl, rfl, by simp [unsigned]⟩
  · obtain ⟨mantissaPositive, unpacked⟩ := unpack_of_pos positive finite
    rw [isUnpacked, unpacked]
    by_cases below : number.toBits.toBitVec.toNat < Layout.signBit
    · have unsigned : ¬ Layout.signBit < number.toBits.toNat := Nat.lt_asymm below
      rw [if_pos below]
      exact ⟨.gt, rfl, rfl, by simp [unsigned]⟩
    · have signed : Layout.signBit < number.toBits.toNat := by
        refine Nat.lt_of_le_of_ne (Nat.le_of_not_lt below) ?_
        intro isSignBit
        rw [← isSignBit, Nat.mod_self] at positive
        exact Nat.lt_irrefl 0 positive
      rw [if_neg below]
      exact ⟨.lt, rfl, rfl, by simp [signed]⟩

theorem lt_zero_iff {number : Float} (finite : number.isFinite = true) :
    number < 0 ↔ Layout.signBit < number.toBits.toNat := by
  obtain ⟨order, isOrder, _, negative⟩ := compare_zero finite
  rw [← negative]
  change decide (number.toModel < (0 : Float).toModel) = true ↔ _
  rw [decide_eq_true_iff]
  change (number.toModel.unpack.compare (.zero .positive) == some .lt) = true ↔ _
  rw [isOrder, beq_iff_eq, Option.some.injEq]

theorem zero_le_iff {number : Float} (finite : number.isFinite = true) :
    0 ≤ number ↔ ¬ Layout.signBit < number.toBits.toNat := by
  obtain ⟨order, _, isOrder, negative⟩ := compare_zero finite
  rw [← negative]
  change decide ((0 : Float).toModel ≤ number.toModel) = true ↔ _
  rw [decide_eq_true_iff]
  change Option.any Ordering.isLE
    (UnpackedFloat.compare (.zero .positive) number.toModel.unpack) = true ↔ _
  rw [isOrder]
  cases order <;> decide

theorem unpack_unsigned {bits unsigned : BitVec 64}
    (isUnsigned : unsigned.toNat = bits.toNat % Layout.signBit)
    (finite : bits.toNat % Layout.signBit < infinity) :
    UnpackedFloat.unpack binary64 unsigned = (UnpackedFloat.unpack binary64 bits).abs := by
  have below : unsigned.toNat < Layout.signBit := isUnsigned ▸ Nat.mod_lt _ (by decide)
  have sameCode : unsigned.toNat % Layout.signBit = bits.toNat % Layout.signBit := by
    rw [Nat.mod_eq_of_lt below, isUnsigned]
  rcases Nat.eq_zero_or_pos (bits.toNat % Layout.signBit) with isZero | positive
  · rw [unpack_of_zero isZero, unpack_of_zero (sameCode.trans isZero), if_pos below]
    rfl
  · obtain ⟨_, unpacked⟩ := unpack_of_pos positive finite
    have unpackedUnsigned := @unpack_of_pos unsigned
    rw [sameCode, if_pos below] at unpackedUnsigned
    obtain ⟨_, unpackedUnsigned⟩ := unpackedUnsigned positive finite
    rw [unpacked, unpackedUnsigned]
    rfl

theorem abs_eq_ofBits {number : Float} (finite : number.isFinite = true) :
    number.abs = Float.ofBits (UInt64.ofNat (number.toBits.toNat % Layout.signBit)) := by
  rw [isFinite_iff] at finite
  have isUnsigned : (UInt64.ofNat (number.toBits.toNat % Layout.signBit)).toBitVec.toNat =
      number.toBits.toBitVec.toNat % Layout.signBit :=
    Nat.mod_eq_of_lt (Nat.lt_of_le_of_lt (Nat.mod_le _ _) number.toBits.toNat_lt)
  delta Float.ofBits Float.Model.ofBits
  rw [unpack_unsigned isUnsigned finite]
  rfl

theorem log2_significand_iff {code : Nat} (positive : 0 < code) :
    (significand code).log2 + 1 = binary64.mantissaBits ↔ binade ≤ code := by
  change _ = 53 ↔ _
  rw [significand]
  split
  · rename_i small
    rw [binade_eq] at *
    have fewer := (Nat.log2_lt (Nat.ne_of_gt positive)).mpr small
    omega
  · rename_i large
    rw [binade_eq] at *
    have full : (2 ^ 52 + code % 2 ^ 52).log2 = 52 := by
      rw [Nat.log2_eq_iff (by omega)]
      omega
    omega

theorem toNat_pack_finite {code : Nat} (positive : 0 < code) (finite : code < infinity)
    (mantissaPositive : 0 < significand code) :
    (UnpackedFloat.pack binary64 (.finite .positive (significand code) (power code)
      mantissaPositive)).toNat = code := by
  have isBiased : (power code + binary64.exponentBias + (52 : Nat)).toNat =
      max (code / binade) 1 := by
    change (power code + 1023 + 52).toNat = _
    rw [power]
    omega
  have biased : ¬ 2 ^ 11 ≤ max (code / binade) 1 + 1 := by
    rw [infinity_eq] at finite
    rw [binade_eq]
    omega
  delta UnpackedFloat.pack
  dsimp only
  rw [isBiased, if_neg biased]
  by_cases large : binade ≤ code
  · rw [if_pos ((log2_significand_iff positive).mpr large), toNat_packComponents,
      BitVec.toNat_ofNat, BitVec.toNat_ofNat, significand, if_neg (Nat.not_lt_of_le large)]
    rw [binade_eq] at *
    omega
  · rw [if_neg (mt (log2_significand_iff positive).mp large), toNat_packComponents,
      BitVec.toNat_ofNat, BitVec.toNat_ofNat, significand, if_pos (Nat.lt_of_not_le large)]
    rw [binade_eq] at *
    omega

theorem toNat_toBits_ofBits {code : Nat} (finite : code < infinity) :
    (Float.ofBits (UInt64.ofNat code)).toBits.toNat = code := by
  have isInfinity := infinity_eq
  have isCode : (UInt64.ofNat code).toBitVec.toNat = code := Nat.mod_eq_of_lt (by omega)
  have unsigned : code < Layout.signBit := by
    rw [signBit_eq]
    omega
  have isMagnitude := Nat.mod_eq_of_lt unsigned
  change ((UnpackedFloat.unpack binary64 (UInt64.ofNat code).toBitVec).pack binary64).toNat = code
  rcases Nat.eq_zero_or_pos code with rfl | positive
  · rfl
  · have unpacked := @unpack_of_pos (UInt64.ofNat code).toBitVec
    rw [isCode, isMagnitude, if_pos unsigned] at unpacked
    obtain ⟨mantissaPositive, unpacked⟩ := unpacked positive finite
    rw [unpacked]
    exact toNat_pack_finite positive finite mantissaPositive

end WhileLang.Magnitude
