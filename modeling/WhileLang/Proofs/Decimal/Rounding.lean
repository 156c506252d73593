import Mathlib.Data.Nat.Prime.Basic
import Mathlib.Tactic.Ring
import WhileLang.Decimal.Shortest

/-!
Rounding depends on the value of a decimal and not on how it is written, and every finite code is
where its own value rounds to. So the shortest decimal of a code, which is either its exact value or
a decimal that was found to round to it, leads back to the code.
-/

namespace WhileLang

namespace Magnitude

theorem roundHalfEven_scale {factor : Nat} (positive : 0 < factor) (numerator denominator : Nat) :
    roundHalfEven (factor * numerator) (factor * denominator) =
      roundHalfEven numerator denominator := by
  have twice : 2 * (factor * (numerator % denominator)) =
      factor * (2 * (numerator % denominator)) := by ring
  simp only [roundHalfEven]
  rw [Nat.mul_div_mul_left numerator denominator positive, Nat.mul_mod_mul_left, twice]
  simp only [Nat.mul_lt_mul_left positive, Nat.mul_left_cancel_iff positive]

theorem nearest_scale {factor : Nat} (positive : 0 < factor) (numerator denominator : Nat) :
    nearest (factor * numerator) (factor * denominator) = nearest numerator denominator := by
  simp only [nearest]
  rw [Nat.mul_div_mul_left numerator denominator positive, Nat.mul_assoc,
    roundHalfEven_scale positive]

theorem nearest_congr {numerator denominator otherNumerator otherDenominator : Nat}
    (positive : 0 < denominator) (otherPositive : 0 < otherDenominator)
    (same : numerator * otherDenominator = otherNumerator * denominator) :
    nearest numerator denominator = nearest otherNumerator otherDenominator := by
  rw [← nearest_scale otherPositive, ← nearest_scale positive otherNumerator,
    Nat.mul_comm otherDenominator numerator, same, Nat.mul_comm denominator otherNumerator,
    Nat.mul_comm otherDenominator denominator]

theorem nearest_of_small {numerator denominator : Nat} (small : 2 * numerator < denominator) :
    nearest numerator denominator = 0 := by
  have whole : numerator / denominator = 0 := Nat.div_eq_of_lt (by omega)
  have rest : numerator % denominator = numerator := Nat.mod_eq_of_lt (by omega)
  simp [nearest, roundHalfEven, whole, rest, small]

theorem div_le_roundHalfEven (numerator denominator : Nat) :
    numerator / denominator ≤ roundHalfEven numerator denominator := by
  simp only [roundHalfEven]
  split
  · exact Nat.le_refl _
  · exact Nat.le_succ _

/-- From `2 ^ 1024` on, which is `2 ^ 2098` units, everything is rounded to infinity. -/
theorem nearest_of_large {numerator denominator : Nat}
    (bits : 2098 ≤ (numerator / denominator).log2) : nearest numerator denominator = infinity := by
  have nonzero : numerator / denominator ≠ 0 := by
    intro isZero
    rw [isZero, Nat.log2_zero] at bits
    omega
  have atLeast := Nat.log2_self_le nonzero
  simp only [nearest, Nat.pow_eq]
  generalize (numerator / denominator).log2 = size at bits atLeast
  have significand : 2 ^ 52 ≤ numerator / (denominator * 2 ^ (size - 52)) := by
    rw [← Nat.div_div_eq_div_mul, Nat.le_div_iff_mul_le (Nat.two_pow_pos _), ← pow_add,
      Nat.add_sub_cancel' (by omega : 52 ≤ size)]
    exact atLeast
  have rounded := Nat.le_trans significand (div_le_roundHalfEven _ _)
  have shifted : 2046 * binade ≤ (size - 52) * binade := Nat.mul_le_mul_right _ (by omega)
  have isBinade : binade = 2 ^ 52 := rfl
  have isInfinity : infinity = 2046 * binade + 2 ^ 52 := rfl
  exact Nat.min_eq_left (by omega)

theorem roundHalfEven_mul {denominator : Nat} (positive : 0 < denominator) (whole : Nat) :
    roundHalfEven (whole * denominator) denominator = whole := by
  simp [roundHalfEven, Nat.mul_div_cancel whole positive, positive]

theorem log2_mul_two_pow {significand : Nat} (positive : 0 < significand) (shift : Nat) :
    (significand * 2 ^ shift).log2 = significand.log2 + shift := by
  have room := Nat.two_pow_pos shift
  have nonzero := Nat.ne_of_gt positive
  rw [Nat.log2_eq_iff (Nat.ne_of_gt (Nat.mul_pos positive room)), Nat.add_right_comm, pow_add,
    pow_add]
  exact ⟨Nat.mul_le_mul_right _ (Nat.log2_self_le nonzero),
    Nat.mul_lt_mul_of_pos_right Nat.lt_log2_self room⟩

/-- Nothing has to be rounded where the significand fits: the code of `significand * 2 ^ shift`
units with a significand of at most 53 bits, and of no fewer if there is a shift. -/
theorem nearest_of_fits {significand shift : Nat} (atMost : significand < 2 ^ 53)
    (atLeast : 2 ^ 52 ≤ significand ∨ shift = 0) :
    nearest (significand * 2 ^ shift) 1 = min infinity (shift * binade + significand) := by
  have isShift : (significand * 2 ^ shift).log2 - 52 = shift := by
    rcases Nat.eq_zero_or_pos significand with rfl | positive
    · simp only [Nat.zero_mul, Nat.log2_zero]
      omega
    · rw [log2_mul_two_pow positive]
      have bits := (Nat.log2_lt (Nat.ne_of_gt positive)).mpr atMost
      rcases atLeast with full | rfl
      · have allBits := (Nat.le_log2 (Nat.ne_of_gt positive)).mpr full
        omega
      · omega
  simp only [nearest, Nat.div_one, isShift, Nat.pow_eq, Nat.one_mul]
  rw [roundHalfEven_mul (Nat.two_pow_pos shift)]

theorem nearest_units {code : Nat} (finite : code < infinity) : nearest (units code) 1 = code := by
  have isBinade : binade = 2 ^ 52 := rfl
  rw [units]
  split
  · rename_i subnormal
    have rounded := @nearest_of_fits code 0 (by omega) (.inr rfl)
    rw [Nat.pow_zero, Nat.mul_one, Nat.zero_mul, Nat.zero_add] at rounded
    exact rounded.trans (Nat.min_eq_right (Nat.le_of_lt finite))
  · rename_i normal
    have parts := Nat.div_add_mod code binade
    have low := Nat.mod_lt code (isBinade ▸ Nat.two_pow_pos 52 : 0 < binade)
    have high : 1 ≤ code / binade :=
      (Nat.one_le_div_iff (isBinade ▸ Nat.two_pow_pos 52)).mpr (Nat.le_of_not_lt normal)
    rw [Nat.pow_eq, nearest_of_fits (by omega) (.inl (by omega))]
    have isCode : (code / binade - 1) * binade + (binade + code % binade) = code := by
      rw [← Nat.add_assoc, ← Nat.succ_mul, Nat.succ_eq_add_one, Nat.sub_add_cancel high,
        Nat.mul_comm, parts]
    rw [isCode]
    exact Nat.min_eq_right (Nat.le_of_lt finite)

end Magnitude

namespace Decimal

def numerator (x : Decimal) : Nat := x.coefficient * 10 ^ x.exponent.toNat

def denominator (x : Decimal) : Nat := 10 ^ (-x.exponent).toNat

theorem denominator_pos (x : Decimal) : 0 < x.denominator := Nat.pow_pos (by decide)

theorem nearest_of_far_power {coefficient power : Nat} (positive : 0 < coefficient)
    (far : 310 ≤ power) :
    Magnitude.nearest (coefficient * 10 ^ power * Magnitude.unitsInOne) 1 =
      Magnitude.infinity := by
  have isUnits : Magnitude.unitsInOne = 2 ^ 1074 := by decide +kernel
  have above : 2 ^ 1024 ≤ coefficient * 10 ^ power := calc
    2 ^ 1024 ≤ 10 ^ 310 := by decide +kernel
    _ ≤ 10 ^ power := Nat.pow_le_pow_right (by decide) far
    _ ≤ coefficient * 10 ^ power := Nat.le_mul_of_pos_left _ positive
  have nonzero : 0 < coefficient * 10 ^ power := Nat.mul_pos positive (Nat.pow_pos (by decide))
  have bits := (Nat.le_log2 (Nat.ne_of_gt nonzero)).mpr above
  apply Magnitude.nearest_of_large
  rw [Nat.div_one, isUnits, Magnitude.log2_mul_two_pow nonzero]
  omega

theorem nearest_of_far_places {coefficient places : Nat}
    (far : coefficient.log2 + 331 ≤ places) :
    Magnitude.nearest (coefficient * Magnitude.unitsInOne) (10 ^ places) = 0 := by
  apply Magnitude.nearest_of_small
  calc 2 * (coefficient * Magnitude.unitsInOne)
    _ = coefficient * (2 * Magnitude.unitsInOne) := by ring
    _ < 2 ^ (coefficient.log2 + 1) * (2 * Magnitude.unitsInOne) :=
        Nat.mul_lt_mul_of_pos_right Nat.lt_log2_self (by decide +kernel)
    _ = 2 ^ coefficient.log2 * (4 * Magnitude.unitsInOne) := by ring
    _ ≤ 10 ^ coefficient.log2 * 10 ^ 331 :=
        Nat.mul_le_mul (Nat.pow_le_pow_left (by decide) _) (by decide +kernel)
    _ = 10 ^ (coefficient.log2 + 331) := (pow_add 10 _ _).symm
    _ ≤ 10 ^ places := Nat.pow_le_pow_right (by decide) far

/-- Deciding far exponents without raising ten to them makes no difference. -/
theorem code_eq_nearest (x : Decimal) :
    x.code = Magnitude.nearest (x.numerator * Magnitude.unitsInOne) x.denominator := by
  obtain ⟨coefficient, exponent⟩ := x
  by_cases isZero : coefficient = 0
  · subst isZero
    rw [numerator, Nat.zero_mul, Nat.zero_mul]
    exact (Magnitude.nearest_of_small (denominator_pos _)).symm
  · simp only [code, if_neg isZero, numerator, denominator]
    cases exponent with
    | ofNat power =>
        have isWhole : (-(power : Int)).toNat = 0 := by omega
        simp only [Int.ofNat_eq_natCast, Int.toNat_natCast, isWhole, Nat.pow_eq, pow_zero]
        split
        · rename_i far
          exact (nearest_of_far_power (Nat.pos_of_ne_zero isZero) far).symm
        · rfl
    | negSucc power =>
        have isFraction : (-Int.negSucc power).toNat = power + 1 := by omega
        simp only [Int.toNat_negSucc, isFraction, Nat.pow_eq, pow_zero, Nat.mul_one]
        split
        · rename_i far
          exact (nearest_of_far_places far).symm
        · rfl

theorem code_shift (coefficient zeros : Nat) (exponent : Int) :
    code ⟨coefficient * 10 ^ zeros, exponent⟩ = code ⟨coefficient, exponent + zeros⟩ := by
  rw [code_eq_nearest, code_eq_nearest]
  apply Magnitude.nearest_congr (denominator_pos _) (denominator_pos _)
  have places : zeros + exponent.toNat + (-(exponent + zeros)).toNat =
      (exponent + zeros).toNat + (-exponent).toNat := by omega
  have powers := congrArg (10 ^ ·) places
  simp only [pow_add] at powers
  simp only [numerator, denominator]
  calc coefficient * 10 ^ zeros * 10 ^ exponent.toNat * Magnitude.unitsInOne *
        10 ^ (-(exponent + zeros)).toNat
    _ = coefficient * Magnitude.unitsInOne *
        (10 ^ zeros * 10 ^ exponent.toNat * 10 ^ (-(exponent + zeros)).toNat) := by ring
    _ = coefficient * 10 ^ (exponent + zeros).toNat * Magnitude.unitsInOne *
        10 ^ (-exponent).toNat := by rw [powers]; ring

end Decimal

namespace Magnitude

theorem exact_value (code : Nat) :
    ∃ places : Nat, (exact code).exponent = -places ∧
      (exact code).coefficient * unitsInOne = units code * 10 ^ places := by
  have isUnits : unitsInOne = 2 ^ 1074 := by decide +kernel
  obtain ⟨bits, atMost, isCommon⟩ : ∃ bits ≤ 1074, (units code).gcd unitsInOne = 2 ^ bits :=
    (Nat.dvd_prime_pow Nat.prime_two).mp (isUnits ▸ Nat.gcd_dvd_right (units code) unitsInOne)
  have left : unitsInOne / 2 ^ bits = 2 ^ (1074 - bits) := by
    rw [isUnits, Nat.pow_div atMost (by decide)]
  have divides : 2 ^ bits ∣ units code := isCommon ▸ Nat.gcd_dvd_left (units code) unitsInOne
  refine ⟨1074 - bits, ?_, ?_⟩
  · rw [exact, isCommon, left, Nat.log2_two_pow]
  · have whole : 2 ^ bits * 2 ^ (1074 - bits) = unitsInOne := by
      rw [← pow_add, Nat.add_sub_cancel' atMost, isUnits]
    simp only [exact, isCommon, left, Nat.log2_two_pow, Nat.pow_eq]
    calc units code / 2 ^ bits * 5 ^ (1074 - bits) * unitsInOne
      _ = units code / 2 ^ bits * 2 ^ bits * (5 ^ (1074 - bits) * 2 ^ (1074 - bits)) := by
          rw [← whole]
          ring
      _ = units code * 10 ^ (1074 - bits) := by rw [Nat.div_mul_cancel divides, ← Nat.mul_pow]

theorem code_exact {code : Nat} (finite : code < infinity) : (exact code).code = code := by
  obtain ⟨places, isExponent, value⟩ := exact_value code
  have noPower : (exact code).exponent.toNat = 0 := by omega
  have isPlaces : (-(exact code).exponent).toNat = places := by omega
  rw [Decimal.code_eq_nearest, Decimal.numerator, Decimal.denominator, noPower, isPlaces,
    Nat.pow_zero, Nat.mul_one, value]
  have room : 0 < 10 ^ places := Nat.pow_pos (by decide)
  exact (nearest_congr room Nat.one_pos (Nat.mul_one _)).trans (nearest_units finite)

theorem code_neighbour {code dropped : Nat} {x found : Decimal}
    (isNeighbour : neighbour? code x dropped = some found) : found.code = code := by
  simp only [neighbour?] at isNeighbour
  split at isNeighbour
  · rename_i belowReads
    split at isNeighbour
    · obtain rfl := Option.some.inj isNeighbour
      exact belowReads
    · rename_i notChosen
      obtain rfl := Option.some.inj isNeighbour
      exact Decidable.not_not.mp (not_or.mp notChosen).2
  · split at isNeighbour
    · rename_i aboveReads
      obtain rfl := Option.some.inj isNeighbour
      exact aboveReads
    · cases isNeighbour

theorem code_shorten {code : Nat} {x : Decimal} (reads : x.code = code) (dropped : Nat) :
    (shorten code x dropped).code = code := by
  induction dropped with
  | zero => exact reads
  | succ dropped ih =>
      rw [shorten]
      split
      · rename_i found isNeighbour
        exact code_neighbour isNeighbour
      · exact ih

theorem code_shortest {code : Nat} (finite : code < infinity) : (shortest code).code = code :=
  code_shorten (code_exact finite) _

end Magnitude

end WhileLang
