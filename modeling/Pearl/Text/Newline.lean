namespace Pearl.Text

/-- The text with every line end (carriage return, line feed, or the two in a row) written as one
line feed. -/
def universalNewlines : List Char → List Char
  | [] => []
  | '\r' :: '\n' :: cs => '\n' :: universalNewlines cs
  | c :: cs => (if c = '\r' then '\n' else c) :: universalNewlines cs

/-- The rest of the current line, without its line feed, and what follows it. -/
def splitLine (cs : List Char) : List Char × List Char :=
  (cs.takeWhile (· ≠ '\n'), cs.dropWhile (· ≠ '\n'))

/-- Offsets just after each line feed of a text that starts at `offset`. -/
def lineStartsFrom (offset : Nat) : List Char → List Nat
  | [] => []
  | c :: cs =>
    if c = '\n' then (offset + 1) :: lineStartsFrom (offset + 1) cs
    else lineStartsFrom (offset + 1) cs

/-- The offset of the first character of each line of a text. -/
def lineStarts (cs : List Char) : List Nat := 0 :: lineStartsFrom 0 cs

end Pearl.Text
