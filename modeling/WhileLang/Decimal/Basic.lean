/-!
Decimal numbers as a coefficient and a power of ten, and the exact reading of a numeral. Nothing
is rounded here: rounding to double precision is a separate step on the decimal that was read.
-/

namespace WhileLang

structure Decimal where
  coefficient : Nat
  exponent : Int
deriving DecidableEq

namespace Decimal

def digitsValue (digits : List Char) : Nat :=
  digits.foldl (fun value digit => 10 * value + (digit.toNat - '0'.toNat)) 0

/-- The power of ten named by the tail of a numeral: `e` or `E`, an optional sign, digits. A tail
without the mark names no power. -/
def tailExponent : List Char → Int
  | [] => 0
  | mark :: rest =>
      if mark = 'e' ∨ mark = 'E' then
        match rest with
        | '-' :: digits => -(digitsValue digits : Int)
        | '+' :: digits => digitsValue digits
        | digits => digitsValue digits
      else 0

def ofNumeral (text : List Char) : Decimal :=
  let whole := text.takeWhile Char.isDigit
  match text.dropWhile Char.isDigit with
  | '.' :: tail =>
      let fraction := tail.takeWhile Char.isDigit
      { coefficient := digitsValue (whole ++ fraction)
        exponent := tailExponent (tail.dropWhile Char.isDigit) - fraction.length }
  | tail => { coefficient := digitsValue whole, exponent := tailExponent tail }

end Decimal

end WhileLang
