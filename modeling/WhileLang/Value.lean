import WhileLang.Decimal.Layout

/-!
The values of the language: double precision numbers and booleans.
-/

namespace WhileLang

inductive Kind where
  | number
  | boolean
deriving DecidableEq

def Kind.name : Kind → String
  | number => "number"
  | boolean => "boolean"

inductive Value where
  | number (value : Float)
  | boolean (value : Bool)
deriving DecidableEq

namespace Value

def kind : Value → Kind
  | number _ => .number
  | boolean _ => .boolean

/-- Printed numbers stand in place from a millionth up to, but not including, `10 ^ 21`; elsewhere
they carry a power of ten with its sign. -/
def layout : Layout where
  lowest := -6
  highest := 20
  plus := "+"
  wholeEnding := ""
  infinity := "Infinity"
  undefined := "NaN"

def text : Value → String
  | number value => layout.write value
  | boolean true => "true"
  | boolean false => "false"

/-- Strict equality. Values of two kinds differ; numbers compare as numbers, so an undefined number
differs from itself and the two zeros agree. -/
def same : Value → Value → Bool
  | number left, number right => left == right
  | boolean left, boolean right => left == right
  | _, _ => false

end Value

end WhileLang
