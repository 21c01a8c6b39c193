import Pearl.Keyword
import Pearl.Text.Newline
import Pearl.Text.Numeral
import Pearl.Text.Quoted

namespace Pearl

/-- The part of a module a text is in: device configuration or program. -/
inductive Part where
  | problem
  | system
  deriving DecidableEq, Repr

def Part.after (p : Part) (word : String) : Part :=
  if word = "SYSTEM" then .system else if word = "PROBLEM" then .problem else p

/-- What may be wrong with a single lexical element. -/
inductive LexicalFault where
  | unterminatedComment
  | unterminatedString
  | illegalCharacter (c : Char)
  deriving DecidableEq, Repr

namespace LexicalFault

def message : LexicalFault → String
  | unterminatedComment => "unterminated block comment (add closing */)"
  | unterminatedString => "unterminated string literal (closed at end of line)"
  | illegalCharacter c => s!"illegal character {String.ofList (Text.quote [c])}"

def code : LexicalFault → String
  | unterminatedComment => "unterminated-comment"
  | unterminatedString => "unterminated-string"
  | illegalCharacter _ => "illegal-character"

end LexicalFault

/-- A lexical element by itself, without a place. -/
structure Lexeme where
  kind : TokenKind
  text : List Char
  fault : Option LexicalFault := none
  deriving DecidableEq, Repr

namespace Lexeme

/-- Blanks within a line. -/
def isSpace (c : Char) : Bool := c = ' ' || c = '\t' || c = '\r' || c = '\x0c' || c = '\x0b'

/-- A character of a word after the first, which is a letter. -/
def isNameChar (c : Char) : Bool := c.isAlphanum || c = '_'

/-- The kind of an element, how many characters after the first belong to it, and what is wrong
with it. -/
structure Extent where
  kind : TokenKind
  extra : Nat
  fault : Option LexicalFault := none
  deriving DecidableEq, Repr

/-- The number of characters at the head of a text that satisfy a condition. -/
def run (p : Char → Bool) (cs : List Char) : Nat := (cs.takeWhile p).length

/-- The characters of a comment after its opening, and whether it is closed. -/
def commentExtent : List Char → Nat × Bool
  | [] => (0, false)
  | '*' :: '/' :: _ => (2, true)
  | _ :: cs =>
    let r := commentExtent cs
    (r.1 + 1, r.2)

def fractionLength : List Char → Nat
  | '.' :: cs => run Text.isDecimalDigit cs + 1
  | _ => 0

/-- The characters of an exponent, which needs a digit. -/
def exponentLength : List Char → Nat
  | [] => 0
  | c :: cs =>
    if c = 'E' || c = 'e' then
      match cs with
      | [] => 0
      | s :: ds =>
        if s = '+' || s = '-' then
          match run Text.isDecimalDigit ds with
          | 0 => 0
          | n + 1 => n + 3
        else match run Text.isDecimalDigit (s :: ds) with
          | 0 => 0
          | n + 1 => n + 2
    else 0

/-- The characters of a precision: digits in parentheses. -/
def precisionLength : List Char → Nat
  | '(' :: cs =>
    let n := run Text.isDecimalDigit cs
    match n, cs.drop n with
    | 0, _ => 0
    | n + 1, ')' :: _ => n + 3
    | _, _ => 0
  | _ => 0

/-- The characters of a number after its first digit. -/
def numberLength (cs : List Char) : Nat :=
  let digits := run Text.isDecimalDigit cs
  let fraction := fractionLength (cs.drop digits)
  let exponent := exponentLength (cs.drop (digits + fraction))
  let precision := precisionLength (cs.drop (digits + fraction + exponent))
  digits + fraction + exponent + precision

/-- The characters of a string after its opening quote, and whether it is closed. A doubled quote
belongs to the string; the end of the line closes it. -/
def stringExtent : List Char → Nat × Bool
  | [] => (0, false)
  | '\x27' :: '\x27' :: cs =>
    let r := stringExtent cs
    (r.1 + 2, r.2)
  | c :: cs =>
    if c = '\n' then (0, false)
    else if c = '\x27' then (1, true)
    else
      let r := stringExtent cs
      (r.1 + 1, r.2)

/-- The characters that make a bit string of a string before them: a `B`, a digit from 1 to 4 if
there is one, and no further character of a name. -/
def bitSuffixLength : List Char → Nat
  | 'B' :: cs =>
    let width := match cs with
      | d :: _ => if '1' ≤ d && d ≤ '4' then 2 else 1
      | [] => 1
    match cs.drop (width - 1) with
    | c :: _ => if isNameChar c then 0 else width
    | [] => width
  | _ => 0

/-- Operators of several characters, the longest first. Arrows belong to the system part. -/
def longOperators : Part → List (List Char)
  | .system =>
    [['<', '-', '>'], [':', '='], ['<', '='], ['>', '='], ['=', '='], ['/', '='], ['<', '>'],
     ['>', '<'], ['/', '/'], ['*', '*'], ['-', '>'], ['<', '-']]
  | .problem =>
    [[':', '='], ['<', '='], ['>', '='], ['=', '='], ['/', '='], ['<', '>'], ['>', '<'],
     ['/', '/'], ['*', '*']]

/-- Operators of one character. -/
def isOperatorChar (c : Char) : Bool := ['+', '-', '*', '/', '<', '>', '='].contains c

def isSymbolChar (c : Char) : Bool := ['(', ')', '[', ']', ',', ';', ':', '.'].contains c

/-- The extent of an operator, of punctuation or of an illegal character. -/
def operatorExtent (part : Part) (c : Char) (cs : List Char) : Extent :=
  match (longOperators part).find? (·.isPrefixOf (c :: cs)) with
  | some op => { kind := .operator, extra := op.length - 1 }
  | none =>
    if isOperatorChar c then { kind := .operator, extra := 0 }
    else if isSymbolChar c then { kind := .symbol, extra := 0 }
    else { kind := .error, extra := 0, fault := some (.illegalCharacter c) }

/-- The extent of a string or bit string whose opening quote stands before `cs`. -/
def quotedExtent (cs : List Char) : Extent :=
  match stringExtent cs with
  | (n, false) => { kind := .string, extra := n, fault := some .unterminatedString }
  | (n, true) =>
    match bitSuffixLength (cs.drop n) with
    | 0 => { kind := .string, extra := n }
    | width => { kind := .bitString, extra := n + width }

/-- The extent of a block comment whose first character stands before `cs`. -/
def blockCommentExtent (cs : List Char) : Extent :=
  match commentExtent (cs.drop 1) with
  | (n, true) => { kind := .comment, extra := n + 1 }
  | (n, false) => { kind := .comment, extra := n + 1, fault := some .unterminatedComment }

/-- The extent of the element that `c`, which is no blank, starts before `cs`. -/
def extent (part : Part) (c : Char) (cs : List Char) : Extent :=
  if c = '!' then { kind := .comment, extra := run (· ≠ '\n') cs }
  else if c = '/' && cs.head? = some '*' then blockCommentExtent cs
  else if c.isAlpha then
    let extra := run isNameChar cs
    { kind := Keyword.classify (String.ofList (c :: cs.take extra)), extra }
  else if c.isDigit then { kind := .number, extra := numberLength cs }
  else if c = '\x27' then quotedExtent cs
  else operatorExtent part c cs

def head (part : Part) (c : Char) (cs : List Char) : Lexeme :=
  let e := extent part c cs
  ⟨e.kind, c :: cs.take e.extra, e.fault⟩

def tail (part : Part) (c : Char) (cs : List Char) : List Char :=
  cs.drop (extent part c cs).extra

/-- An element is a word, and may be the name of a macro, if it starts with a letter. -/
def isWord (l : Lexeme) : Bool := l.text.head?.any Char.isAlpha

/-- Nothing is lost. -/
theorem head_append_tail (part : Part) (c : Char) (cs : List Char) :
    (head part c cs).text ++ tail part c cs = c :: cs := by
  simp [head, tail]

/-- Every element takes at least one character. -/
theorem length_tail_le (part : Part) (c : Char) (cs : List Char) :
    (tail part c cs).length ≤ cs.length := by
  simp [tail]

end Lexeme

end Pearl
