import Pearl.Text.Blank
import Pearl.Text.Numeral

namespace Pearl.Text

/-- The value of a decimal digit of any script. Each script has its ten digits in a row. -/
def digitValue? (c : Char) : Option Nat :=
  if c.isDigit then some (c.toNat - 48)
  else (decimalRanges.find? fun r => r.1 ≤ c.toNat && c.toNat ≤ r.2).map fun r =>
    (c.toNat - r.1) % 10

/-- The value of digits after a number; a single underscore may stand between two digits. -/
def readDigits (value : Nat) : List Char → Option Nat
  | [] => some value
  | '_' :: c :: cs => (digitValue? c).bind fun d => readDigits (value * 10 + d) cs
  | c :: cs => (digitValue? c).bind fun d => readDigits (value * 10 + d) cs

def maxDigits : Nat := 4300

/-- The value of digits without a sign. -/
def natural? (cs : List Char) : Option Nat :=
  match cs with
  | [] => none
  | c :: rest =>
    if (cs.filter (· ≠ '_')).length ≤ maxDigits then
      (digitValue? c).bind fun d => readDigits d rest
    else none

/-- A blank around a number; the separators of ASCII are none. -/
def isNumberBlank (c : Char) : Bool := isBlank c && !(0x1C ≤ c.toNat && c.toNat ≤ 0x1F)

def trimNumber (cs : List Char) : List Char :=
  ((cs.dropWhile isNumberBlank).reverse.dropWhile isNumberBlank).reverse

/-- Reads an integer: digits with an optional sign and blanks around them. -/
def integer? (s : String) : Option Int :=
  match trimNumber s.toList with
  | '-' :: cs => (natural? cs).map fun n => -(n : Int)
  | '+' :: cs => (natural? cs).map fun n => (n : Int)
  | cs => (natural? cs).map fun n => (n : Int)

end Pearl.Text
