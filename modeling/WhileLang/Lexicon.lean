import WhileLang.Error
import WhileLang.Pattern

/-!
How source text falls into tokens. Every rule of the lexicon pairs a pattern with the token it
stands for; blanks and comments stand for none. At each place the rule with the longest match
applies, and of two with equally long matches the earlier one, so that a keyword wins over the
name of the same spelling. Only a line end and a block comment move the scan to another line.
-/

namespace WhileLang

structure Rule where
  pattern : Pattern
  token? : List Char → Option Token
  /-- How many lines further down the text behind a match begins. -/
  lineEnds : List Char → Nat := fun _ => 0

namespace Lexicon

def isNameStart (c : Char) : Bool := c.isAlpha || c == '_'

def isNamePart (c : Char) : Bool := c.isAlphanum || c == '_'

def digits : Pattern := .oneOrMore (.one Char.isDigit)

def exponent : Pattern :=
  .followedBy (.one fun c => c == 'e' || c == 'E')
    (.followedBy (.optional (.one fun c => c == '+' || c == '-')) digits)

def fraction : Pattern := .followedBy (.char '.') digits

def wholeNumeral : Pattern :=
  .followedBy digits (.followedBy (.optional fraction) (.optional exponent))

def bareFraction : Pattern := .followedBy fraction (.optional exponent)

def name : Pattern := .followedBy (.one isNameStart) (.many (.one isNamePart))

def lineComment : Pattern :=
  .followedBy (.literal ['/', '/']) (.many (.one fun c => c != '\n' && c != '\r'))

/-- The inside of a block comment is made of characters other than a star, and of stars each taken
together with the character behind it, which is not a slash. -/
def blockCommentPart : Pattern :=
  .either (.one (· != '*')) (.followedBy (.char '*') (.one (· != '/')))

def blockComment : Pattern :=
  .followedBy (.literal ['/', '*'])
    (.followedBy (.many blockCommentPart) (.literal ['*', '/']))

def isBlank (c : Char) : Bool := c == ' ' || c == '\t' || c == '\r' || c == '\x0c'

def blanks : Pattern := .oneOrMore (.one isBlank)

def numberOf (text : List Char) : Option Token :=
  some (.number (Decimal.ofNumeral text).toFloat)

def word (spelling : String) (token : Token) : Rule where
  pattern := .literal spelling.toList
  token? := fun _ => some token

def passedOver (pattern : Pattern) : Rule where
  pattern := pattern
  token? := fun _ => none

def keywords : List Rule :=
  [Keyword.letWord, .ifWord, .elseWord, .whileWord, .printWord].map
    (fun keyword => word keyword.text (.keyword keyword)) ++
  [word "true" (.boolean true), word "false" (.boolean false)]

def operators : List Rule :=
  Operator.all.map fun op => word op.symbol (.operator op)

def punctuation : List Rule :=
  [word "=" .equals, word ";" .semicolon, word "(" .openParen, word ")" .closeParen,
    word "\x7b" .openBrace, word "\x7d" .closeBrace]

def rules : List Rule :=
  keywords ++ operators ++ punctuation ++
  [{ pattern := wholeNumeral, token? := numberOf },
    { pattern := bareFraction, token? := numberOf },
    { pattern := name, token? := fun text => some (.identifier (String.ofList text)) },
    passedOver lineComment, { passedOver blockComment with lineEnds := (·.count '\n') },
    { passedOver (.char '\n') with lineEnds := fun _ => 1 }, passedOver blanks]

/-- The first rule with the longest match at the front of a text, and the length of that match. A
match has to take at least one character. -/
def longestMatch : List Rule → List Char → Option (Rule × Nat)
  | [], _ => none
  | rule :: others, text =>
      match rule.pattern.longest text, longestMatch others text with
      | some length, some (other, otherLength) =>
          if otherLength ≤ length then some (rule, length) else some (other, otherLength)
      | some length, none => if length = 0 then none else some (rule, length)
      | none, other => other

end Lexicon

/-- The tokens of a text that begins on `line`, after the first `pending` characters, which belong
to a match already dealt with. -/
def Lexicon.scan (line : Nat) : Nat → List Char → Except Error (List Located)
  | _, [] => .ok []
  | pending + 1, _ :: rest => scan line pending rest
  | 0, c :: rest =>
      match longestMatch rules (c :: rest) with
      | none => .error { line, fault := .unexpected (.character c) }
      | some (rule, length) =>
          let lexeme := (c :: rest).take length
          let following := scan (line + rule.lineEnds lexeme) (length - 1) rest
          match rule.token? lexeme with
          | none => following
          | some token => following.map ({ token, line } :: ·)

def tokenize (source : String) : Except Error (List Located) :=
  Lexicon.scan 1 0 source.toList

end WhileLang
