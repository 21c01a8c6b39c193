import Pearl.Text.Ranges

namespace Pearl.Text

/-- White space: the code points with the property of that name, and the four separators of
ASCII (file, group, record and unit). -/
def blankRanges : List (Nat × Nat) :=
  [(0x9, 0xD), (0x1C, 0x20), (0x85, 0x85), (0xA0, 0xA0), (0x1680, 0x1680), (0x2000, 0x200A),
   (0x2028, 0x2029), (0x202F, 0x202F), (0x205F, 0x205F), (0x3000, 0x3000)]

def isBlank (c : Char) : Bool := inRanges blankRanges c

def trimStart (cs : List Char) : List Char := cs.dropWhile isBlank

def trimEnd (cs : List Char) : List Char := (cs.reverse.dropWhile isBlank).reverse

def trim (cs : List Char) : List Char := trimEnd (trimStart cs)

def trimEndString (s : String) : String := String.ofList (trimEnd s.toList)

def trimString (s : String) : String := String.ofList (trim s.toList)

end Pearl.Text
