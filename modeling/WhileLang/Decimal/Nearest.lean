import WhileLang.Decimal.Basic

/-!
Rounding a decimal to double precision.

The non-negative double precision numbers, listed in increasing order, are numbered from zero by
their bit patterns; that number is called a code here. Every finite code stands for a whole number
of units, the unit being `2 ^ (-1074)`, so rounding is arithmetic on natural numbers: find how many
low bits of the unit count do not fit, round the quotient with a half going to the even neighbour,
and put the two parts together. A carry out of the significand needs no case of its own, because
it lands on the code that follows.
-/

namespace WhileLang

namespace Magnitude

def binade : Nat := Nat.pow 2 52

def unitsInOne : Nat := Nat.pow 2 1074

def infinity : Nat := 2047 * binade

/-- The value of a finite code, counted in units of `2 ^ (-1074)`. -/
def units (code : Nat) : Nat :=
  if code < binade then code
  else (binade + code % binade) * Nat.pow 2 (code / binade - 1)

def roundHalfEven (numerator denominator : Nat) : Nat :=
  let whole := numerator / denominator
  let twice := 2 * (numerator % denominator)
  if twice < denominator ∨ (twice = denominator ∧ whole % 2 = 0) then whole else whole + 1

/-- The code nearest to `numerator / denominator` units. -/
def nearest (numerator denominator : Nat) : Nat :=
  let shift := (numerator / denominator).log2 - 52
  min infinity (shift * binade + roundHalfEven numerator (denominator * Nat.pow 2 shift))

end Magnitude

namespace Decimal

/-- The code nearest to a decimal. Exponents far outside the range of double precision are decided
without raising ten to them: `10 ^ 310` is above every finite code, and a number with fewer than
`n` bits is below `10 ^ n`, so below `10 ^ (-330)` it rounds to zero. -/
def code (x : Decimal) : Nat :=
  if x.coefficient = 0 then 0
  else
    match x.exponent with
    | .ofNat power =>
        if 310 ≤ power then Magnitude.infinity
        else Magnitude.nearest (x.coefficient * Nat.pow 10 power * Magnitude.unitsInOne) 1
    | .negSucc power =>
        if x.coefficient.log2 + 331 ≤ power + 1 then 0
        else Magnitude.nearest (x.coefficient * Magnitude.unitsInOne) (Nat.pow 10 (power + 1))

def toFloat (x : Decimal) : Float :=
  Float.ofBits (UInt64.ofNat x.code)

end Decimal

end WhileLang
