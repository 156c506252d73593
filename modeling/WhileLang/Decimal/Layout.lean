import WhileLang.Decimal.Shortest

/-!
Writing double precision numbers. What the digits are is settled by the shortest decimal; a layout
says how they are set: for which powers of ten the digits stand in place, how a power is marked,
and how whole numbers, infinities and undefined results look.
-/

namespace WhileLang

structure Layout where
  /-- The least power of the leading digit that is written in place. -/
  lowest : Int
  highest : Int
  plus : String
  /-- What follows the digits of a whole number written in place. -/
  wholeEnding : String
  infinity : String
  undefined : String

namespace Layout

def zeros (count : Nat) : List Char := List.replicate count '0'

/-- Digits set in place, the first of them standing for `10 ^ leading`. -/
def inPlace (layout : Layout) (digits : List Char) : Int → List Char
  | .negSucc before => '0' :: '.' :: zeros before ++ digits
  | .ofNat leading =>
      if digits.length ≤ leading + 1 then
        digits ++ zeros (leading + 1 - digits.length) ++ layout.wholeEnding.toList
      else digits.take (leading + 1) ++ '.' :: digits.drop (leading + 1)

def withPower (layout : Layout) (digits : List Char) (leading : Int) : List Char :=
  let fraction := digits.drop 1
  let sign := if leading < 0 then "-" else layout.plus
  digits.take 1 ++ (if fraction.isEmpty then [] else '.' :: fraction) ++
    'e' :: sign.toList ++ Nat.toDigits 10 leading.natAbs

def significant (digits : List Char) : List Char :=
  (digits.reverse.dropWhile (· == '0')).reverse

def writeDecimal (layout : Layout) (x : Decimal) : List Char :=
  let digits := Nat.toDigits 10 x.coefficient
  let leading := x.exponent + (digits.length - 1 : Nat)
  if x.coefficient = 0 then '0' :: layout.wholeEnding.toList
  else if layout.lowest ≤ leading ∧ leading ≤ layout.highest then
    layout.inPlace (significant digits) leading
  else layout.withPower (significant digits) leading

def signBit : Nat := Nat.pow 2 63

/-- The text of a number. The sign of a zero is not written. -/
def write (layout : Layout) (number : Float) : String :=
  let bits := number.toBits.toNat
  let code := bits % signBit
  if Magnitude.infinity < code then layout.undefined
  else
    let size :=
      if code = Magnitude.infinity then layout.infinity
      else String.ofList (layout.writeDecimal (Magnitude.shortest code))
    if signBit < bits then "-" ++ size else size

end Layout

end WhileLang
