import WhileLang.Operator
import WhileLang.Value

/-!
Tokens and the way messages describe them.
-/

namespace WhileLang

inductive Keyword where
  | letWord
  | ifWord
  | elseWord
  | whileWord
  | printWord
deriving DecidableEq

def Keyword.text : Keyword → String
  | letWord => "let"
  | ifWord => "if"
  | elseWord => "else"
  | whileWord => "while"
  | printWord => "print"

inductive Token where
  | number (value : Float)
  | boolean (value : Bool)
  | identifier (name : String)
  | keyword (word : Keyword)
  | operator (op : Operator)
  | equals
  | semicolon
  | openParen
  | closeParen
  | openBrace
  | closeBrace
deriving DecidableEq

structure Located where
  token : Token
  line : Nat
deriving DecidableEq

namespace Token

/-- The text of a token that is spelled like a name but cannot be one. -/
def reserved? : Token → Option String
  | keyword word => some word.text
  | boolean true => some "true"
  | boolean false => some "false"
  | _ => none

def operator? : Token → Option Operator
  | operator op => some op
  | _ => none

/-- A number in a description stands in place from `10 ^ (-4)` up to, but not including, `10 ^ 16`,
and then always has a fraction. -/
def layout : Layout where
  lowest := -4
  highest := 15
  plus := ""
  wholeEnding := ".0"
  infinity := "inf"
  undefined := "NaN"

def description : Token → String
  | number value => "Number(" ++ layout.write value ++ ")"
  | boolean true => "Bool(true)"
  | boolean false => "Bool(false)"
  | identifier name => "Identifier(\"" ++ name ++ "\")"
  | keyword .letWord => "Let"
  | keyword .ifWord => "If"
  | keyword .elseWord => "Else"
  | keyword .whileWord => "While"
  | keyword .printWord => "Print"
  | operator .add => "Plus"
  | operator .subtract => "Minus"
  | operator .multiply => "Star"
  | operator .divide => "Slash"
  | operator .and => "DoubleAmpersand"
  | operator .or => "DoublePipe"
  | operator .greater => "Greater"
  | operator .less => "Less"
  | operator .strictEqual => "TripleEqual"
  | equals => "Equals"
  | semicolon => "Semicolon"
  | openParen => "LParen"
  | closeParen => "RParen"
  | openBrace => "LBrace"
  | closeBrace => "RBrace"

end Token

end WhileLang
