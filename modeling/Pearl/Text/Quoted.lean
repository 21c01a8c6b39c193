import Pearl.Text.Printable

namespace Pearl.Text

/-- The lower-case hexadecimal digits of a number, with leading zeros up to the width. -/
def hexDigits (width n : Nat) : List Char :=
  let digits := Nat.toDigits 16 n
  List.replicate (width - digits.length) '0' ++ digits

/-- The mark a quoted text stands in: an apostrophe, or a double quote for a text that holds
apostrophes and no double quote. -/
def quoteMark (cs : List Char) : Char :=
  if cs.contains '\x27' && !cs.contains '"' then '"' else '\x27'

def codePoint (c : Char) : List Char :=
  if c.toNat < 0x100 then '\\' :: 'x' :: hexDigits 2 c.toNat
  else if c.toNat < 0x10000 then '\\' :: 'u' :: hexDigits 4 c.toNat
  else '\\' :: 'U' :: hexDigits 8 c.toNat

/-- One character inside a text quoted with `mark`: printable ones stand for themselves, the
mark and the backslash are escaped, and the rest is written by its code point. -/
def escapeChar (mark c : Char) : List Char :=
  if c = mark || c = '\\' then ['\\', c]
  else if c = '\t' then ['\\', 't']
  else if c = '\n' then ['\\', 'n']
  else if c = '\r' then ['\\', 'r']
  else if isPrintable c then [c]
  else codePoint c

/-- The text in quotes, on one line and in visible characters only. -/
def quote (cs : List Char) : List Char :=
  let mark := quoteMark cs
  mark :: cs.flatMap (escapeChar mark) ++ [mark]

def quoteString (s : String) : String := String.ofList (quote s.toList)

end Pearl.Text
