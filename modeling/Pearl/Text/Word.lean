import Pearl.Text.Letter
import Pearl.Text.Numeral

namespace Pearl.Text

/-- A letter or a character with a numeric value, of any script. -/
def isAlphanumeric (c : Char) : Bool := isLetter c || isNumeral c

def isWordChar (c : Char) : Bool := c == '_' || isAlphanumeric c

/-- The word at the head of a text and what follows it: the longest run of word characters. -/
def splitWord (cs : List Char) : List Char × List Char :=
  (cs.takeWhile isWordChar, cs.dropWhile isWordChar)

end Pearl.Text
