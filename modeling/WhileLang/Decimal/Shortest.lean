import WhileLang.Decimal.Nearest

/-!
The shortest decimal that rounds to a given double precision number. The number itself is a
decimal, usually a long one. Its two neighbours with one digit are tried first, then those with two
digits, and so on; the exact decimal ends the search, since it rounds to itself.
-/

namespace WhileLang

namespace Magnitude

/-- The exact decimal of a finite code. A fraction over `2 ^ places` in lowest terms has that many
decimal places. -/
def exact (code : Nat) : Decimal :=
  let common := Nat.gcd (units code) unitsInOne
  let places := (unitsInOne / common).log2
  { coefficient := units code / common * Nat.pow 5 places, exponent := -(places : Int) }

/-- The better of the two neighbours of `x` that drop its last `dropped` digits, among those that
round to `code`. The nearer one is better, and of two equally near the upper one. -/
def neighbour? (code : Nat) (x : Decimal) (dropped : Nat) : Option Decimal :=
  let step := Nat.pow 10 dropped
  let exponent := x.exponent + dropped
  let below : Decimal := { coefficient := x.coefficient / step, exponent }
  let above : Decimal := { coefficient := x.coefficient / step + 1, exponent }
  let closer := 2 * (x.coefficient % step) < step
  if below.code = code then
    if closer ∨ above.code ≠ code then some below else some above
  else if above.code = code then some above
  else none

def shorten (code : Nat) (x : Decimal) : Nat → Decimal
  | 0 => x
  | dropped + 1 =>
      match neighbour? code x (dropped + 1) with
      | some found => found
      | none => shorten code x dropped

def shortest (code : Nat) : Decimal :=
  let whole := exact code
  shorten code whole ((Nat.toDigits 10 whole.coefficient).length - 1)

end Magnitude

end WhileLang
