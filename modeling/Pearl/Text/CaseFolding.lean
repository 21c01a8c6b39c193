import Pearl.Text.LowerCase

namespace Pearl.Text

/-- The characters beyond ASCII that fold into ASCII letters other than a lower-case form of
theirs: sharp s, long s and the Latin ligatures. -/
def asciiFoldings : List (Nat × String) :=
  [(0xDF, "ss"), (0x17F, "s"), (0x1E9E, "ss"), (0xFB00, "ff"), (0xFB01, "fi"), (0xFB02, "fl"),
   (0xFB03, "ffi"), (0xFB04, "ffl"), (0xFB05, "st"), (0xFB06, "st")]

/-- One character as it is compared with ASCII text without regard to case. -/
def foldChar (c : Char) : List Char :=
  match asciiFoldings.lookup c.toNat with
  | some s => s.toList
  | none => if c.toNat < 0x80 then [c.toLower] else [lowerPartner c]

/-- Two texts, the first of them in ASCII lower case, are the same without regard to case. -/
def equalsFolded (plain s : String) : Bool := s.toList.flatMap foldChar == plain.toList

end Pearl.Text
