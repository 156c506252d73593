import Mathlib.Algebra.Order.Field.Rat
import Mathlib.Algebra.Order.Ring.Abs
import Mathlib.Tactic.FieldSimp
import Mathlib.Tactic.Linarith
import WhileLang.Proofs.Decimal.Bits
import WhileLang.Proofs.Decimal.Rounding

/-!
A decimal is rounded to the nearest double precision number. What that means is said by the values
of the numbers alone: no finite one is nearer, of two that are equally near the even one is taken,
and from half way to the power of two behind the last finite number on it is infinity.
-/

namespace WhileLang

namespace Double

/-- The rational that a finite number stands for. -/
def value (number : Float) : ℚ :=
  match number.toModel.unpack with
  | .finite .positive mantissa exponent _ => mantissa * 2 ^ exponent
  | .finite .negative mantissa exponent _ => -(mantissa * 2 ^ exponent)
  | _ => 0

/-- Half way from the last finite number, `2 ^ 1024 - 2 ^ 971`, to `2 ^ 1024`. -/
def overflow : ℚ := 2 ^ 1024 - 2 ^ 970

/-- `RoundsTo x number`: the number, which has no sign, is the nearest one to a rational that is not
negative. A number is even if the last bit of its pattern, which is that of its digits, is zero. -/
structure RoundsTo (x : ℚ) (number : Float) : Prop where
  unsigned : number.toBits.toNat < 2 ^ 63
  infinite : overflow ≤ x → number = 1 / 0
  finite : x < overflow → number.isFinite = true
  nearest : x < overflow → ∀ other : Float, other.isFinite = true →
    |value number - x| ≤ |value other - x|
  even : x < overflow → ∀ other : Float, other.isFinite = true → value other ≠ value number →
    |value other - x| = |value number - x| → number.toBits.toNat % 2 = 0

end Double

namespace Magnitude

/-- The codes from one power of two to the next, both included, are equally far apart. -/
theorem units_shift {digits shift : Nat} (atMost : digits ≤ 2 ^ 53)
    (atLeast : 2 ^ 52 ≤ digits ∨ shift = 0) :
    units (shift * binade + digits) = digits * 2 ^ shift := by
  rw [units, binade_eq, Nat.pow_eq]
  rcases Nat.lt_or_ge digits (2 ^ 52) with few | full
  · obtain rfl : shift = 0 := by omega
    rw [if_pos (by omega)]
    omega
  · rw [if_neg (by omega)]
    rcases Nat.lt_or_eq_of_le atMost with within | rfl
    · have high : (shift * 2 ^ 52 + digits) / 2 ^ 52 - 1 = shift := by omega
      have low : (shift * 2 ^ 52 + digits) % 2 ^ 52 = digits - 2 ^ 52 := by omega
      rw [high, low, Nat.add_sub_cancel' full]
    · have high : (shift * 2 ^ 52 + 2 ^ 53) / 2 ^ 52 - 1 = shift + 1 := by omega
      have low : (shift * 2 ^ 52 + 2 ^ 53) % 2 ^ 52 = 0 := by omega
      rw [high, low, pow_succ]
      omega

theorem units_strictMono : StrictMono units := by
  refine strictMono_nat_of_lt_succ fun code => ?_
  obtain ⟨shift, digits, isCode, atMost, atLeast⟩ : ∃ shift digits,
      code = shift * binade + digits ∧ digits < 2 ^ 53 ∧ (2 ^ 52 ≤ digits ∨ shift = 0) := by
    refine ⟨code / binade - 1, code - (code / binade - 1) * binade, ?_⟩
    rw [binade_eq]
    omega
  rw [isCode, Nat.add_assoc, units_shift atMost (by omega),
    units_shift (Nat.le_of_lt atMost) atLeast]
  exact Nat.mul_lt_mul_of_pos_right (Nat.lt_succ_self digits) (Nat.two_pow_pos shift)

theorem units_zero : units 0 = 0 := rfl

theorem units_eq (code : Nat) :
    units code = significand code * 2 ^ (max (code / binade) 1 - 1) := by
  rw [units, significand, Nat.pow_eq]
  split
  · rename_i small
    rw [Nat.div_eq_of_lt small]
    exact (Nat.mul_one code).symm
  · rename_i large
    have atLeast : 1 ≤ code / binade := by
      rw [binade_eq] at large ⊢
      omega
    rw [Nat.max_eq_left atLeast]

theorem unitsInOne_eq : (unitsInOne : ℚ) = 2 ^ 1074 := by
  have isPower : unitsInOne = 2 ^ 1074 := by decide +kernel
  rw [isPower, Nat.cast_pow, Nat.cast_ofNat]

theorem unitsInOne_pos : (0 : ℚ) < unitsInOne := by
  rw [unitsInOne_eq]
  exact pow_pos two_pos 1074

/-- What a code stands for. That of infinity is the power of two behind the last finite one. -/
def size (code : Nat) : ℚ := units code / unitsInOne

theorem size_zero : size 0 = 0 := by
  rw [size, units_zero, Nat.cast_zero, zero_div]

theorem size_nonneg (code : Nat) : 0 ≤ size code :=
  div_nonneg (Nat.cast_nonneg _) unitsInOne_pos.le

theorem size_strictMono : StrictMono size := fun _ _ less =>
  div_lt_div_of_pos_right (Nat.cast_lt.mpr (units_strictMono less)) unitsInOne_pos

theorem size_eq (code : Nat) : size code = significand code * 2 ^ power code := by
  have isPower : power code = (max (code / binade) 1 - 1 : Nat) - (1074 : Nat) := by
    rw [power]
    omega
  rw [size, units_eq, unitsInOne_eq, isPower, zpow_sub₀ two_ne_zero, zpow_natCast, zpow_natCast,
    Nat.cast_mul, Nat.cast_pow, Nat.cast_ofNat, mul_div_assoc]

theorem size_infinity : size (infinity - 1) + size infinity = 2 * Double.overflow := by
  have isLast : infinity - 1 = 2045 * binade + (2 ^ 53 - 1) := rfl
  have isInfinity : infinity = 2046 * binade + 2 ^ 52 := rfl
  have lastPower : (2 : ℚ) ^ 2045 = 2 ^ 970 * 2 ^ 1074 * 2 := by rw [← pow_add, ← pow_succ]
  have nextPower : (2 : ℚ) ^ 2046 = 2 ^ 2045 * 2 := pow_succ 2 2045
  have overflowPower : (2 : ℚ) ^ 1024 = 2 ^ 970 * 2 ^ 54 := by rw [← pow_add]
  have nonzero : (2 : ℚ) ^ 1074 ≠ 0 := pow_ne_zero 1074 two_ne_zero
  rw [size, size, isLast, isInfinity, units_shift (by decide) (.inl (by decide)),
    units_shift (by decide) (.inl (by decide)), unitsInOne_eq, Double.overflow, Nat.cast_mul,
    Nat.cast_mul, Nat.cast_pow 2 2045, Nat.cast_pow 2 2046, Nat.cast_ofNat, nextPower, lastPower,
    overflowPower]
  -- The powers are too large to be computed.
  generalize (2 : ℚ) ^ 970 = small
  generalize (2 : ℚ) ^ 1074 = large at nonzero ⊢
  field_simp
  norm_num

theorem abs_sub_le_abs_sub_iff {near far x : ℚ} :
    |near - x| ≤ |far - x| ↔ 0 ≤ (far - near) * (near + far - 2 * x) := by
  have difference : (far - x) ^ 2 - (near - x) ^ 2 = (far - near) * (near + far - 2 * x) := by ring
  rw [← difference, sub_nonneg, sq_le_sq]

structure Closest (limit : Nat) (x : ℚ) (code : Nat) : Prop where
  inRange : code < limit
  nearest : ∀ other < limit, |size code - x| ≤ |size other - x|
  even : ∀ other < limit, other ≠ code → |size other - x| = |size code - x| → code % 2 = 0

section

variable {limit lower code other : Nat} {x : ℚ}

theorem lower_nearer_iff (less : code < other) :
    |size code - x| ≤ |size other - x| ↔ 2 * x ≤ size code + size other := by
  rw [abs_sub_le_abs_sub_iff, mul_nonneg_iff_of_pos_left (sub_pos.mpr (size_strictMono less)),
    sub_nonneg]

theorem upper_nearer_iff (less : code < other) :
    |size other - x| ≤ |size code - x| ↔ size code + size other ≤ 2 * x := by
  rw [abs_sub_le_abs_sub_iff, ← neg_mul_neg, neg_sub, neg_sub,
    mul_nonneg_iff_of_pos_left (sub_pos.mpr (size_strictMono less)), sub_nonneg, add_comm]

/-- Only the two neighbours of a code can be as near as it is. -/
theorem closest_of_neighbours (inRange : code < limit)
    (lowerLoses : ∀ before, code = before + 1 → size before + size code < 2 * x ∨
      size before + size code = 2 * x ∧ code % 2 = 0)
    (upperLoses : 2 * x < size code + size (code + 1) ∨
      2 * x = size code + size (code + 1) ∧ code % 2 = 0) : Closest limit x code := by
  have below {other : Nat} (less : other < code) : size other + size code < 2 * x ∨
      size other + size code ≤ 2 * x ∧ code % 2 = 0 := by
    obtain ⟨before, isCode⟩ := Nat.exists_eq_succ_of_ne_zero (Nat.ne_zero_of_lt less)
    have atMost : size other ≤ size before := size_strictMono.monotone (by omega)
    rcases lowerLoses before isCode with strict | ⟨tie, isEven⟩
    · exact .inl (by linarith)
    · exact .inr ⟨by linarith, isEven⟩
  have above {other : Nat} (greater : code < other) : 2 * x < size code + size other ∨
      2 * x ≤ size code + size other ∧ code % 2 = 0 := by
    have atLeast : size (code + 1) ≤ size other := size_strictMono.monotone greater
    rcases upperLoses with strict | ⟨tie, isEven⟩
    · exact .inl (by linarith)
    · exact .inr ⟨by linarith, isEven⟩
  refine ⟨inRange, fun other _ => ?_, fun other _ differs sameDistance => ?_⟩
  · rcases Nat.lt_trichotomy other code with less | rfl | greater
    · exact (upper_nearer_iff less).mpr ((below less).elim le_of_lt And.left)
    · exact le_rfl
    · exact (lower_nearer_iff greater).mpr ((above greater).elim le_of_lt And.left)
  · rcases Nat.lt_or_gt_of_ne differs with less | greater
    · have half := (lower_nearer_iff less).mp sameDistance.le
      rcases below less with strict | ⟨_, isEven⟩
      · linarith
      · exact isEven
    · have half := (upper_nearer_iff greater).mp sameDistance.le
      rcases above greater with strict | ⟨_, isEven⟩
      · linarith
      · exact isEven

/-- Rounding by what is left above the lower neighbour, `full` being the way to the upper one. -/
theorem closest_of_rest {rest full : Nat} {scale : ℚ} (positive : 0 < scale) (small : rest < full)
    (isRest : x = size lower + rest / scale) (isFull : size (lower + 1) = size lower + full / scale)
    (inRange : (if 2 * rest < full ∨ 2 * rest = full ∧ lower % 2 = 0 then lower else lower + 1) <
      limit) :
    Closest limit x
      (if 2 * rest < full ∨ 2 * rest = full ∧ lower % 2 = 0 then lower else lower + 1) := by
  have nonneg : 0 ≤ rest / scale := div_nonneg (Nat.cast_nonneg rest) positive.le
  have ordered {less greater : Nat} (isLess : less < greater) : less / scale < greater / scale :=
    div_lt_div_of_pos_right (Nat.cast_lt.mpr isLess) positive
  have below := ordered small
  have twice : (2 * rest : Nat) / scale = 2 * (rest / scale) := by
    rw [Nat.cast_mul, mul_div_assoc, Nat.cast_ofNat]
  have upperNext := size_strictMono (Nat.lt_succ_self (lower + 1))
  have lowerPrevious {before : Nat} (isLower : lower = before + 1) :
      size before + size lower < 2 * x := by
    have smaller := size_strictMono (isLower ▸ Nat.lt_succ_self before : before < lower)
    linarith
  rcases Nat.lt_trichotomy (2 * rest) full with less | same | greater
  · have half := ordered less
    rw [if_pos (.inl less)] at inRange ⊢
    exact closest_of_neighbours inRange (fun _ isLower => .inl (lowerPrevious isLower))
      (.inl (by linarith))
  · rw [same] at twice
    by_cases isEven : lower % 2 = 0
    · rw [if_pos (.inr ⟨same, isEven⟩)] at inRange ⊢
      exact closest_of_neighbours inRange (fun _ isLower => .inl (lowerPrevious isLower))
        (.inr ⟨by linarith, isEven⟩)
    · rw [if_neg (by omega)] at inRange ⊢
      refine closest_of_neighbours inRange ?_ (.inl (by linarith))
      rintro _ ⟨⟩
      exact .inr ⟨by linarith, by omega⟩
  · have half := ordered greater
    rw [if_neg (by omega)] at inRange ⊢
    refine closest_of_neighbours inRange ?_ (.inl (by linarith))
    rintro _ ⟨⟩
    exact .inl (by linarith)

theorem Closest.not_lt (first : Closest limit x code) (second : Closest limit x other) :
    ¬ code < other := by
  intro less
  have firstNear := first.nearest other second.inRange
  have secondNear := second.nearest code first.inRange
  have sameDistance := le_antisymm firstNear secondNear
  -- Both would be even, so there is a code between them, and it is nearer.
  have evenFirst := first.even other second.inRange (Nat.ne_of_gt less) sameDistance.symm
  have evenSecond := second.even code first.inRange (Nat.ne_of_lt less) sameDistance
  have between : code + 1 < other := by omega
  have nextNear := first.nearest (code + 1) (Nat.lt_trans between second.inRange)
  linarith [size_strictMono between, (upper_nearer_iff less).mp secondNear,
    (lower_nearer_iff (Nat.lt_succ_self code)).mp nextNear]

theorem Closest.unique (first : Closest limit x code) (second : Closest limit x other) :
    code = other :=
  Nat.le_antisymm (Nat.le_of_not_lt (second.not_lt first)) (Nat.le_of_not_lt (first.not_lt second))

end

section

variable {numerator denominator limit : Nat}

/-- The code before it is cut off at infinity, as if there were digits for every power of two. -/
def uncut (numerator denominator : Nat) : Nat :=
  let shift := (numerator / denominator).log2 - 52
  shift * binade + roundHalfEven numerator (denominator * 2 ^ shift)

theorem nearest_eq_min (numerator denominator : Nat) :
    nearest numerator denominator = min infinity (uncut numerator denominator) := rfl

theorem quotient_fits {shift : Nat} (isShift : shift = (numerator / denominator).log2 - 52) :
    numerator / (denominator * 2 ^ shift) < 2 ^ 53 ∧
      (2 ^ 52 ≤ numerator / (denominator * 2 ^ shift) ∨ shift = 0) := by
  rw [← Nat.div_div_eq_div_mul]
  generalize numerator / denominator = whole at isShift
  rcases Nat.eq_zero_or_pos whole with rfl | positive
  · rw [Nat.log2_zero] at isShift
    rw [Nat.zero_div]
    omega
  constructor
  · rw [Nat.div_lt_iff_lt_mul (Nat.two_pow_pos shift), ← pow_add]
    exact Nat.lt_of_lt_of_le Nat.lt_log2_self (Nat.pow_le_pow_right (by decide) (by omega))
  · by_cases few : whole.log2 ≤ 52
    · exact .inr (by omega)
    · left
      rw [Nat.le_div_iff_mul_le (Nat.two_pow_pos shift), ← pow_add]
      exact Nat.le_trans (Nat.pow_le_pow_right (by decide) (by omega))
        (Nat.log2_self_le (Nat.ne_of_gt positive))

theorem closest_uncut (positive : 0 < denominator)
    (inRange : uncut numerator denominator < limit) :
    Closest limit (numerator / (denominator * unitsInOne)) (uncut numerator denominator) := by
  simp only [uncut, roundHalfEven] at inRange ⊢
  generalize isShift : (numerator / denominator).log2 - 52 = shift at inRange ⊢
  obtain ⟨atMost, atLeast⟩ := quotient_fits isShift.symm
  have parts := Nat.div_add_mod numerator (denominator * 2 ^ shift)
  have restSmall := Nat.mod_lt numerator (Nat.mul_pos positive (Nat.two_pow_pos shift))
  generalize numerator / (denominator * 2 ^ shift) = digits at *
  generalize numerator % (denominator * 2 ^ shift) = rest at *
  have isLower := units_shift (Nat.le_of_lt atMost) atLeast
  have isUpper : units (shift * binade + digits + 1) = (digits + 1) * 2 ^ shift := by
    rw [Nat.add_assoc, units_shift (by omega) (by omega)]
  have sameParity : digits % 2 = (shift * binade + digits) % 2 := by
    rw [binade_eq]
    omega
  have denominatorPos : (0 : ℚ) < denominator := Nat.cast_pos.mpr positive
  have scalePos := unitsInOne_pos
  rw [sameParity, apply_ite (shift * binade + ·), ← Nat.add_assoc] at inRange ⊢
  refine closest_of_rest (mul_pos denominatorPos scalePos) restSmall ?_ ?_ inRange
  · rw [size, isLower, ← parts]
    push_cast
    field_simp
  · rw [size, size, isLower, isUpper]
    push_cast
    field_simp

theorem uncut_lt_infinity_iff (positive : 0 < denominator) :
    uncut numerator denominator < infinity ↔
      (numerator / (denominator * unitsInOne) : ℚ) < Double.overflow := by
  have isHalf := size_infinity
  constructor
  · intro finite
    have closest := closest_uncut positive (Nat.lt_succ_of_lt finite)
    generalize (numerator / (denominator * unitsInOne) : ℚ) = x at closest ⊢
    have near := closest.nearest infinity (Nat.lt_succ_self _)
    have half := (lower_nearer_iff finite).mp near
    rcases Nat.lt_or_eq_of_le (Nat.le_sub_one_of_lt finite) with less | isLast
    · linarith [size_strictMono less]
    · -- The last finite code is odd, so there is no tie that it could win.
      apply lt_of_not_ge
      intro reached
      have middle : size (uncut numerator denominator) + size infinity ≤ 2 * x := by
        rw [isLast]
        linarith
      have far := (upper_nearer_iff finite).mpr middle
      have isEven := closest.even infinity (Nat.lt_succ_self _) (Nat.ne_of_gt finite)
        (le_antisymm far near)
      rw [isLast] at isEven
      exact absurd isEven (by decide)
  · intro less
    by_contra notFinite
    have reached := Nat.le_of_not_lt notFinite
    have last : infinity - 1 < uncut numerator denominator :=
      Nat.lt_of_lt_of_le (by decide) reached
    have closest := closest_uncut positive (Nat.lt_succ_self (uncut numerator denominator))
    have half := (upper_nearer_iff last).mp (closest.nearest _ (Nat.lt_succ_of_lt last))
    linarith [size_strictMono.monotone reached]

end

end Magnitude

namespace Double

open Magnitude
open Float.Model (UnpackedFloat)
open Float.Model.Format (binary64)

variable {x : ℚ} {number other : Float}

theorem eq_of_toBits (same : number.toBits.toNat = other.toBits.toNat) : number = other := by
  obtain ⟨⟨bits, valid⟩⟩ := number
  obtain ⟨⟨otherBits, otherValid⟩⟩ := other
  obtain rfl : bits = otherBits := UInt64.toNat_inj.mp same
  rfl

theorem value_eq (finite : number.isFinite = true) :
    value number = (if number.toBits.toNat < Layout.signBit then 1 else -1) *
      size (number.toBits.toNat % Layout.signBit) := by
  rw [isFinite_iff] at finite
  have isUnpacked : number.toModel.unpack =
      UnpackedFloat.unpack binary64 number.toBits.toBitVec := rfl
  simp only [← UInt64.toNat_toBitVec] at finite ⊢
  rw [value, isUnpacked]
  generalize number.toBits.toBitVec = bits at finite ⊢
  rcases Nat.eq_zero_or_pos (bits.toNat % Layout.signBit) with isZero | positive
  · rw [unpack_of_zero isZero, isZero, size_zero, mul_zero]
  · obtain ⟨mantissaPositive, unpacked⟩ := unpack_of_pos positive finite
    rw [unpacked, size_eq]
    by_cases unsigned : bits.toNat < Layout.signBit
    · rw [if_pos unsigned, if_pos unsigned, one_mul]
    · rw [if_neg unsigned, if_neg unsigned, neg_one_mul]

theorem finite_of_lt_infinity (below : number.toBits.toNat < infinity) :
    number.isFinite = true ∧ value number = size number.toBits.toNat := by
  have unsigned : number.toBits.toNat < Layout.signBit := Nat.lt_trans below (by decide)
  have isMagnitude := Nat.mod_eq_of_lt unsigned
  have isFinite := (isFinite_iff number).mpr (isMagnitude.symm ▸ below)
  refine ⟨isFinite, ?_⟩
  rw [value_eq isFinite, if_pos unsigned, one_mul, isMagnitude]

/-- A number with a sign is no nearer than zero to what is not negative. -/
theorem exists_code_as_near (nonneg : 0 ≤ x) (finite : other.isFinite = true) :
    ∃ code < infinity, |size code - x| ≤ |value other - x| ∧
      (|size code - x| = |value other - x| → value other = size code) := by
  by_cases unsigned : other.toBits.toNat < Layout.signBit
  · have below := (isFinite_iff other).mp finite
    rw [Nat.mod_eq_of_lt unsigned] at below
    have isValue := (finite_of_lt_infinity below).2
    exact ⟨_, below, by rw [isValue], fun _ => isValue⟩
  · have isValue := value_eq finite
    rw [if_neg unsigned, neg_one_mul] at isValue
    have sizeNonneg := size_nonneg (other.toBits.toNat % Layout.signBit)
    refine ⟨0, by decide, ?_⟩
    rw [size_zero, zero_sub, abs_neg, abs_of_nonneg nonneg, abs_of_nonpos (by linarith)]
    exact ⟨by linarith, fun sameDistance => by linarith⟩

theorem roundsTo_of_closest (nonneg : 0 ≤ x) (inRange : x < overflow)
    (closest : Closest infinity x number.toBits.toNat) : RoundsTo x number := by
  obtain ⟨isFinite, isValue⟩ := finite_of_lt_infinity closest.inRange
  refine ⟨Nat.lt_trans closest.inRange (by decide), fun reached => absurd inRange reached.not_gt,
    fun _ => isFinite, fun _ other finite => ?_, fun _ other finite differs sameDistance => ?_⟩
  · obtain ⟨code, codeFinite, near, _⟩ := exists_code_as_near nonneg finite
    rw [isValue]
    exact (closest.nearest code codeFinite).trans near
  · obtain ⟨code, codeFinite, near, isCode⟩ := exists_code_as_near nonneg finite
    rw [isValue] at differs sameDistance
    have sameNear := le_antisymm near (sameDistance.le.trans (closest.nearest code codeFinite))
    have otherValue := isCode sameNear
    refine closest.even code codeFinite ?_ (sameNear.trans sameDistance)
    rintro rfl
    exact differs otherValue

theorem RoundsTo.closest (rounded : RoundsTo x number) (inRange : x < overflow) :
    Closest infinity x number.toBits.toNat := by
  have below := (isFinite_iff number).mp (rounded.finite inRange)
  rw [signBit_eq, Nat.mod_eq_of_lt rounded.unsigned] at below
  have isValue := (finite_of_lt_infinity below).2
  have other {code : Nat} (codeFinite : code < infinity) :
      ∃ other : Float, other.isFinite = true ∧ value other = size code := by
    refine ⟨Float.ofBits (UInt64.ofNat code), ?_⟩
    have isCode := toNat_toBits_ofBits codeFinite
    rw [← isCode] at codeFinite
    have isFinite := finite_of_lt_infinity codeFinite
    rwa [isCode] at isFinite
  refine ⟨below, fun code codeFinite => ?_, fun code codeFinite differs sameDistance => ?_⟩
  · obtain ⟨number, isFinite, isOther⟩ := other codeFinite
    rw [← isValue, ← isOther]
    exact rounded.nearest inRange number isFinite
  · obtain ⟨number, isFinite, isOther⟩ := other codeFinite
    rw [← isValue, ← isOther] at sameDistance
    refine rounded.even inRange number isFinite ?_ sameDistance
    rw [isValue, isOther]
    exact size_strictMono.injective.ne differs

theorem RoundsTo.unique (first : RoundsTo x number) (second : RoundsTo x other) :
    number = other := by
  rcases le_or_gt overflow x with reached | inRange
  · rw [first.infinite reached, second.infinite reached]
  · exact eq_of_toBits ((first.closest inRange).unique (second.closest inRange))

end Double

namespace Decimal

def value (x : Decimal) : ℚ := x.coefficient * 10 ^ x.exponent

theorem value_eq_div (x : Decimal) : x.value = x.numerator / x.denominator := by
  rw [value, numerator, denominator, Nat.cast_mul, Nat.cast_pow, Nat.cast_pow, Nat.cast_ofNat,
    mul_div_assoc, ← zpow_natCast, ← zpow_natCast, ← zpow_sub₀ (by norm_num),
    Int.toNat_sub_toNat_neg]

theorem value_nonneg (x : Decimal) : 0 ≤ x.value :=
  mul_nonneg (Nat.cast_nonneg _) (zpow_nonneg (by norm_num) _)

theorem roundsTo_toFloat (x : Decimal) : Double.RoundsTo x.value x.toFloat := by
  have positive := x.denominator_pos
  have scaled : x.value =
      (x.numerator * Magnitude.unitsInOne : Nat) / (x.denominator * Magnitude.unitsInOne) := by
    rw [value_eq_div, Nat.cast_mul, mul_div_mul_right _ _ Magnitude.unitsInOne_pos.ne']
  have isFinite := @Magnitude.uncut_lt_infinity_iff (x.numerator * Magnitude.unitsInOne) _ positive
  rw [← scaled] at isFinite
  rw [toFloat, code_eq_nearest, Magnitude.nearest_eq_min]
  rcases lt_or_ge x.value Double.overflow with inRange | reached
  · have finite := isFinite.mpr inRange
    have closest := Magnitude.closest_uncut positive finite
    rw [Nat.min_eq_right (Nat.le_of_lt finite)]
    apply Double.roundsTo_of_closest x.value_nonneg inRange
    rwa [Magnitude.toNat_toBits_ofBits finite, scaled]
  · have infinite := Nat.le_of_not_lt (mt isFinite.mp reached.not_gt)
    rw [Nat.min_eq_left infinite]
    have notInRange : ¬ x.value < Double.overflow := reached.not_gt
    exact ⟨by decide +kernel, fun _ => by decide +kernel, fun inRange => absurd inRange notInRange,
      fun inRange => absurd inRange notInRange, fun inRange => absurd inRange notInRange⟩

end Decimal

end WhileLang
