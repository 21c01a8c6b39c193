namespace Pearl

inductive TokenKind where
  /-- Reserved words and words that introduce a type. -/
  | keyword
  /-- Names chosen by the programmer. -/
  | identifier
  | number
  | string
  /-- A string followed by `B` and at most one of the digits 1 to 4. -/
  | bitString
  | operator
  /-- Punctuation. -/
  | symbol
  | comment
  /-- A line that does not count: switched off by a condition, or a directive nobody knows. -/
  | inactive
  /-- A reference to a macro; the tokens of its replacement follow. -/
  | reference
  /-- A `#` line. -/
  | directive
  /-- An illegal character. -/
  | error
  deriving DecidableEq, Repr

namespace TokenKind

def name : TokenKind → String
  | keyword => "KEYWORD"
  | identifier => "IDENTIFIER"
  | number => "NUMBER"
  | string => "STRING"
  | bitString => "BITSTRING"
  | operator => "OPERATOR"
  | symbol => "SYMBOL"
  | comment => "COMMENT"
  | inactive => "INACTIVE"
  | reference => "MACRO_EXPANSION"
  | directive => "DIRECTIVE"
  | error => "ERROR"

/-- Tokens of these kinds mean nothing to the analysis of a program. -/
def isTrivia : TokenKind → Bool
  | comment | inactive | reference | directive => true
  | _ => false

def isSignificant (k : TokenKind) : Bool := !k.isTrivia && k ≠ error

end TokenKind

end Pearl
