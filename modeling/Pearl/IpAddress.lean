import Pearl.Text.Hexadecimal
import Pearl.Text.Split

/-!
IP addresses as they are written: four decimal numbers for version 4, and eight groups of
hexadecimal digits for version 6, of which a run of zeros may be left out.
-/

namespace Pearl.IpAddress

open Text

/-! ### Version 4 -/

def decimalValue (cs : List Char) : Nat := cs.foldl (fun n c => n * 10 + (c.toNat - 48)) 0

/-- The decimal number of a byte, without leading zeros. -/
def isOctet (cs : List Char) : Bool :=
  cs ≠ [] && cs.all Char.isDigit && cs.length ≤ 3 &&
    (cs.length = 1 || cs.head? ≠ some '0') && decimalValue cs ≤ 255

/-- Four bytes with points between them. -/
def isVersion4 (cs : List Char) : Bool :=
  let octets := splitOn '.' cs
  octets.length = 4 && octets.all isOctet

/-! ### Version 6 -/

/-- One to four hexadecimal digits. -/
def isGroup (cs : List Char) : Bool := cs ≠ [] && cs.length ≤ 4 && cs.all isHexDigit

/-- The pieces between the colons of a text; an empty text has none. -/
def pieces (cs : List Char) : List (List Char) := if cs = [] then [] else splitOn ':' cs

/-- The number of groups that pieces stand for, or none if one of them is malformed. The last two
groups may be written as an address of version 4. -/
def groupCount? : List (List Char) → Option Nat
  | [] => some 0
  | [last] => if isGroup last then some 1 else if isVersion4 last then some 2 else none
  | piece :: rest => if isGroup piece then (groupCount? rest).map (· + 1) else none

/-- The text before the first two colons in a row and the text after them, which is absent if
they are. -/
def splitGap : List Char → List Char × Option (List Char)
  | ':' :: ':' :: rest => ([], some rest)
  | [] => ([], none)
  | c :: rest => (c :: (splitGap rest).1, (splitGap rest).2)

/-- Eight groups with colons between them. Two colons in a row, at most once, stand for at least
one group of zeros. -/
def isPlainVersion6 (cs : List Char) : Bool :=
  match splitGap cs with
  | (whole, none) => groupCount? (pieces whole) = some 8
  | (before, some after) =>
    (pieces before).all isGroup &&
      (groupCount? (pieces after)).any fun n => (pieces before).length + n ≤ 7

/-- An address of version 6, perhaps with the zone it belongs to after a percent sign. -/
def isVersion6 (cs : List Char) : Bool :=
  match splitFirst '%' cs with
  | (address, none) => isPlainVersion6 address
  | (address, some zone) => zone ≠ [] && !zone.contains '%' && isPlainVersion6 address

end Pearl.IpAddress
