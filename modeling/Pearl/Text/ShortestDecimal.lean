namespace Pearl.Text

/-- A positive double `mantissa * 2 ^ exponent`. `isBoundary` says that the double below it is
half as far away as the one above. -/
structure BinaryFraction where
  mantissa : Nat
  exponent : Int
  isBoundary : Bool

/-- The value of a positive finite double. -/
def BinaryFraction.ofBits (bits : UInt64) : BinaryFraction :=
  let fraction := (bits &&& 0xFFFFFFFFFFFFF).toNat
  let power := ((bits >>> 52) &&& 0x7FF).toNat
  if power = 0 then ⟨fraction, -1074, false⟩
  else ⟨fraction + Nat.pow 2 52, (power : Int) - 1075, fraction = 0 && 1 < power⟩

/-- A decimal `0.d₁d₂…` times `10 ^ point`, its digits given as one number of `width` places. -/
structure Decimal where
  digits : Nat
  width : Nat
  point : Int
  deriving Repr

/-- The number `n * 10 ^ e / d` rounded down, and whether it is exact. -/
def scaleDown (n d : Nat) (e : Int) : Nat × Nat × Nat :=
  if 0 ≤ e then
    let m := n * Nat.pow 10 e.toNat
    (m / d, m % d, d)
  else
    let k := d * Nat.pow 10 (-e).toNat
    (n / k, n % k, k)

/-- Whether the decimal `a * 10 ^ e` lies between the halves of the gaps around `x`; the ends
belong to the interval when the mantissa is even. All numbers are compared as multiples of a
quarter of the last binary place. -/
def BinaryFraction.admits (x : BinaryFraction) (a : Nat) (e : Int) : Bool :=
  let low := 4 * x.mantissa - (if x.isBoundary then 1 else 2)
  let high := 4 * x.mantissa + 2
  let q := x.exponent - 2
  let left := a * Nat.pow 10 e.toNat * Nat.pow 2 (-q).toNat
  let scale := Nat.pow 10 (-e).toNat * Nat.pow 2 q.toNat
  if x.mantissa % 2 = 0 then low * scale ≤ left && left ≤ high * scale
  else low * scale < left && left < high * scale

/-- The number of places before the decimal point of `n / d`: the least `k` from `guess` on with
`n / d < 10 ^ k`. -/
def leadingPlace (n d : Nat) (guess : Int) : Nat → Int
  | 0 => guess
  | fuel + 1 =>
    if (scaleDown n d (-guess)).1 = 0 then guess else leadingPlace n d (guess + 1) fuel

/-- The decimal of at most `width` places nearest to `x` that still reads back as `x`, if any. -/
def BinaryFraction.decimalOf? (x : BinaryFraction) (n d : Nat) (point : Int) (width : Nat) :
    Option Decimal :=
  let e := (width : Int) - point
  let (down, rest, unit) := scaleDown n d e
  let okDown := x.admits down (-e)
  let okUp := x.admits (down + 1) (-e)
  let nearUp := unit < 2 * rest || (unit == 2 * rest && down % 2 == 1)
  if okDown && !(okUp && nearUp) then some ⟨down, width, point⟩
  else if okUp then some ⟨down + 1, width, point⟩
  else none

/-- The first decimal that reads back, trying ever more places. -/
def BinaryFraction.search (x : BinaryFraction) (n d : Nat) (point : Int) (width : Nat) :
    Nat → Decimal
  | 0 => ⟨(scaleDown n d ((width : Int) - point)).1, width, point⟩
  | fuel + 1 => (x.decimalOf? n d point width).getD (x.search n d point (width + 1) fuel)

def BinaryFraction.shortest (x : BinaryFraction) : Decimal :=
  let n := x.mantissa * Nat.pow 2 x.exponent.toNat
  let d := Nat.pow 2 (-x.exponent).toNat
  let guess := ((Nat.log2 x.mantissa : Int) + x.exponent) * 30103 / 100000 - 1
  x.search n d (leadingPlace n d guess 8) 1 17

/-- The digits without the zeros at their end, and the place of the decimal point. A number that
was rounded up to a power of ten has one digit more than its width. -/
def Decimal.normalize (x : Decimal) : List Char × Int :=
  let digits := Nat.toDigits 10 x.digits
  let point := x.point + (digits.length - x.width : Int)
  ((digits.reverse.dropWhile (· = '0')).reverse, point)

/-- Digits with a decimal point after `point` places: positional from `0.0001` up to `10 ^ 16`,
else with an exponent of at least two digits. -/
def writeDecimal (digits : List Char) (point : Int) : List Char :=
  if -4 < point && point ≤ 16 then
    if point ≤ 0 then '0' :: '.' :: List.replicate (-point).toNat '0' ++ digits
    else
      let whole := digits.take point.toNat
      let rest := digits.drop point.toNat
      whole ++ List.replicate (point.toNat - whole.length) '0' ++
        '.' :: (if rest.isEmpty then ['0'] else rest)
  else
    let exponent := Nat.toDigits 10 (point - 1).natAbs
    digits.take 1 ++ (if digits.length ≤ 1 then [] else '.' :: digits.drop 1) ++
      'e' :: (if point - 1 < 0 then '-' else '+') ::
        List.replicate (2 - exponent.length) '0' ++ exponent

/-- The shortest text that reads back as the double. -/
def showFloat (x : Float) : String :=
  if x.isNaN then "nan"
  else
    let sign := if x.toBits >>> 63 = 1 then "-" else ""
    if x.isInf then sign ++ "inf"
    else if x == 0 then sign ++ "0.0"
    else
      let (digits, point) := (BinaryFraction.ofBits (x.toBits &&& 0x7FFFFFFFFFFFFFFF)).shortest.normalize
      sign ++ String.ofList (writeDecimal digits point)

end Pearl.Text
