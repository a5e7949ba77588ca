import QuantumCompiler.Numeric.RealArith

/-!
# Binary floating point numbers

A finite binary64 number is `mantissa * 2 ^ exponent` with a sign.  `Binary64.decode` takes a
`Float` apart into these, and everything exact that the library says about a `Float` (its decimal
digits, its integer part) is calculated from the parts in integer arithmetic.

`instance : RealArith Float` is the arithmetic on which the compiler runs.
-/

namespace QuantumCompiler

/-- A floating point number taken apart. -/
inductive Binary64 where
  /-- Not a number. -/
  | nan
  /-- An infinity with its sign. -/
  | infinite (negative : Bool)
  /-- The number `mantissa * 2 ^ exponent` with a sign; zero keeps its sign. -/
  | finite (negative : Bool) (mantissa : Nat) (exponent : Int)
  deriving Repr, DecidableEq

namespace Binary64

/-- Least exponent of a binary64 number written with an integer mantissa. -/
def minExponent : Int := -1074

/-- Number of bits below the leading bit of a normal mantissa. -/
def fractionBits : Nat := 52

/-- Sign, mantissa and exponent of a floating point number. -/
def decode (x : Float) : Binary64 :=
  let bits : Nat := x.toBits.toNat
  let negative := bits / Nat.pow 2 63 == 1
  let biased : Nat := bits / Nat.pow 2 fractionBits % Nat.pow 2 11
  let fraction : Nat := bits % Nat.pow 2 fractionBits
  if biased == 2047 then
    if fraction == 0 then .infinite negative else .nan
  else if biased == 0 then .finite negative fraction minExponent
  else .finite negative (fraction + Nat.pow 2 fractionBits) ((biased : Int) - 1075)

/-- Integer part of the magnitude of `mantissa * 2 ^ exponent`. -/
def integerPart (mantissa : Nat) : Int → Nat
  | .ofNat e => mantissa * Nat.pow 2 e
  | .negSucc e => mantissa / Nat.pow 2 (e + 1)

/-- The 64 bit word that holds an integer part.  A negative value wraps around; a magnitude that
fits no word leaves only the sign bit. -/
def toWord : Binary64 → Nat
  | .nan => Nat.pow 2 63
  | .infinite _ => Nat.pow 2 63
  | .finite false m e =>
    let n := integerPart m e
    if n < Nat.pow 2 64 then n else Nat.pow 2 63
  | .finite true m e =>
    let n := integerPart m e
    if n == 0 then 0 else if n ≤ Nat.pow 2 63 then Nat.pow 2 64 - n else Nat.pow 2 63

/-- Whether a floating point number is neither infinite nor undefined. -/
def isFinite (x : Float) : Bool :=
  match decode x with
  | .finite .. => true
  | _ => false

end Binary64

instance : RealArith Float where
  natCast := Float.ofNat
  pi := 3.141592653589793
  abs := Float.abs
  sqrt := Float.sqrt
  sin := Float.sin
  cos := Float.cos
  exp := Float.exp
  atan2 := Float.atan2
  round := Float.round
  lt x y := x < y
  le x y := x ≤ y
  truncate x := (Binary64.decode x).toWord

end QuantumCompiler
