import QuantumCompiler.Numeric.Binary64

/-!
# Decimal text of floating point numbers

* `Decimal.shortest`: the fewest decimal digits that read back as the same binary64 number, and
  among those the nearest to it.
* `Decimal.Style`: the choices of a format on top of the digits, that is which exponents are
  written positionally and how wide an exponent is.
* `Decimal.fixed`: a fixed number of places, a half going to the even neighbour.
* `Decimal.read`: the nearest binary64 number to a decimal.
-/

namespace QuantumCompiler.Decimal

/-- Number of decimal digits of a natural number; zero has one. -/
def digitCount (n : Nat) : Nat := (Nat.toDigits 10 n).length

/-- Decimal text of a natural number. -/
def natText (n : Nat) : String := String.ofList (Nat.toDigits 10 n)

/-- Decimal text of an integer. -/
def intText : Int → String
  | .ofNat n => natText n
  | .negSucc n => "-" ++ natText (n + 1)

/-- The fraction `num / den` times ten to the power `e`. -/
def scale (num den : Nat) : Int → Nat × Nat
  | .ofNat e => (num * Nat.pow 10 e, den)
  | .negSucc e => (num, den * Nat.pow 10 (e + 1))

/-- Exponent of the leading decimal digit of the positive fraction `num / den`. -/
def leadingExponent (num den : Nat) : Int :=
  let guess : Int := (digitCount num : Int) - (digitCount den : Int)
  let (n, d) := scale num den (-guess)
  if d ≤ n then guess else guess - 1

/-- Decimal digits as a natural number, with the exponent of the leading digit. -/
structure Digits where
  /-- The digits, the leading one not zero. -/
  value : Nat
  /-- Power of ten of the leading digit. -/
  exponent : Int
  deriving Repr, DecidableEq

/-- Drops zeros at the end of a digit string. -/
def dropZeros : Nat → Nat → Nat
  | 0, n => n
  | fuel + 1, n => if n != 0 && n % 10 == 0 then dropZeros fuel (n / 10) else n

/-- The neighbours of a number on a decimal grid that round to it.  The number is `4 * mantissa`
quarter units, the numbers that round to it lie between `low` and `high` quarter units, and one
quarter unit is `unitNum / unitDen` steps of the grid. -/
def gridHit (mantissa low unitNum unitDen : Nat) : Option Nat :=
  let value := 4 * mantissa * unitNum
  let below := value / unitDen
  let above := below + 1
  let lower := low * unitNum
  let upper := (4 * mantissa + 2) * unitNum
  let closed := mantissa % 2 == 0
  let inside (c : Nat) : Bool :=
    let p := c * unitDen
    if closed then lower ≤ p && p ≤ upper else lower < p && p < upper
  match inside below, inside above with
  | true, true =>
    let r := value - below * unitDen
    if 2 * r < unitDen then some below
    else if unitDen < 2 * r then some above
    else if below % 2 == 0 then some below else some above
  | true, false => some below
  | false, true => some above
  | false, false => none

/-- Tries grids of more and more digits until one of them has a hit. -/
def shortestFrom (mantissa low unitNum unitDen : Nat) (exponent : Int) : Nat → Nat → Digits
  | 0, _ => ⟨0, 0⟩
  | fuel + 1, digits =>
    let (n, d) := scale unitNum unitDen ((digits : Int) - 1 - exponent)
    match gridHit mantissa low n d with
    | some c =>
      if c == Nat.pow 10 digits then ⟨1, exponent + 1⟩ else ⟨dropZeros digits c, exponent⟩
    | none => shortestFrom mantissa low unitNum unitDen exponent fuel (digits + 1)

/-- The fewest digits that read back as `mantissa * 2 ^ exponent`, which must not be zero.
Seventeen digits always suffice. -/
def shortest (mantissa : Nat) (exponent : Int) : Digits :=
  let (unitNum, unitDen) := match exponent - 2 with
    | .ofNat e => (Nat.pow 2 e, 1)
    | .negSucc e => (1, Nat.pow 2 (e + 1))
  let low :=
    if mantissa == Nat.pow 2 Binary64.fractionBits && exponent != Binary64.minExponent then
      4 * mantissa - 1
    else 4 * mantissa - 2
  shortestFrom mantissa low unitNum unitDen
    (leadingExponent (4 * mantissa * unitNum) unitDen) 17 1

/-! ## Formats -/

/-- How digits become text. -/
structure Style where
  /-- Least exponent of the leading digit that is written without an exponent. -/
  positionalFrom : Int
  /-- Least exponent of the leading digit above that which needs an exponent again. -/
  positionalTo : Int
  /-- Least number of digits of an exponent. -/
  exponentWidth : Nat

/-- Pads a text with zeros on the left. -/
def padZeros (width : Nat) (text : String) : String :=
  String.ofList (List.replicate (width - text.length) '0') ++ text

/-- Digits without an exponent. -/
def positional (digits : Digits) : String :=
  let text := Nat.toDigits 10 digits.value
  match digits.exponent with
  | .ofNat e =>
    if text.length ≤ e + 1 then String.ofList (text ++ List.replicate (e + 1 - text.length) '0')
    else String.ofList (text.take (e + 1)) ++ "." ++ String.ofList (text.drop (e + 1))
  | .negSucc e => "0." ++ String.ofList (List.replicate e '0' ++ text)

/-- Digits with an exponent, whose sign is always written. -/
def scientific (style : Style) (digits : Digits) : String :=
  let text := Nat.toDigits 10 digits.value
  let mantissa :=
    if text.length ≤ 1 then String.ofList text
    else String.ofList (text.take 1) ++ "." ++ String.ofList (text.drop 1)
  let exponent := match digits.exponent with
    | .ofNat e => "+" ++ padZeros style.exponentWidth (natText e)
    | .negSucc e => "-" ++ padZeros style.exponentWidth (natText (e + 1))
  mantissa ++ "e" ++ exponent

/-- Digits in a style. -/
def Digits.text (style : Style) (digits : Digits) : String :=
  if style.positionalFrom ≤ digits.exponent && digits.exponent < style.positionalTo then
    positional digits
  else scientific style digits

/-- Text of a floating point number with the fewest digits that read back. -/
def Style.text (style : Style) (x : Float) : String :=
  match Binary64.decode x with
  | .nan => "NaN"
  | .infinite negative => if negative then "-Inf" else "+Inf"
  | .finite negative mantissa exponent =>
    let sign := if negative then "-" else ""
    if mantissa == 0 then sign ++ "0" else sign ++ (shortest mantissa exponent).text style

/-- The quotient rounded to the nearest integer, a half going to the even one. -/
def divHalfEven (num den : Nat) : Nat :=
  let q := num / den
  let r := num % den
  if 2 * r < den then q
  else if den < 2 * r then q + 1
  else if q % 2 == 0 then q else q + 1

/-- Text with a fixed number of decimal places, at least one, rounded from the exact value. -/
def fixed (places : Nat) (x : Float) : String :=
  match Binary64.decode x with
  | .nan => "NaN"
  | .infinite negative => if negative then "-Inf" else "+Inf"
  | .finite negative mantissa exponent =>
    let units := match exponent with
      | .ofNat e => mantissa * Nat.pow 2 e * Nat.pow 10 places
      | .negSucc e => divHalfEven (mantissa * Nat.pow 10 places) (Nat.pow 2 (e + 1))
    (if negative then "-" else "") ++ natText (units / Nat.pow 10 places) ++ "." ++
      padZeros places (natText (units % Nat.pow 10 places))

/-! ## Reading -/

/-- The binary64 number nearest to `mantissa * 10 ^ exponent`, or `none` if that is too large.
Exponents far outside the range are settled without calculating the power. -/
def read (negative : Bool) (mantissa : Nat) (exponent : Int) : Option Float :=
  let leading : Int := exponent + (digitCount mantissa : Int) - 1
  let magnitude : Option Float :=
    if mantissa == 0 || leading < -400 then some 0.0
    else if 400 < leading then none
    else
      let x := match exponent with
        | .ofNat e => Float.ofScientific mantissa false e
        | .negSucc e => Float.ofScientific mantissa true (e + 1)
      if Binary64.isFinite x then some x else none
  magnitude.map fun x => if negative then -x else x

end QuantumCompiler.Decimal
