/-!
# Arithmetic on a number line

Angles, durations and probabilities are calculated with a handful of operations.  `RealArith`
lists them, so that a rule or an estimate is written once: it runs on binary floating point and
can be read on the real line.  The class states no laws.  Every formula in the library keeps the
order of its operations, because floating point addition and multiplication are not associative.
-/

namespace QuantumCompiler

/-- The operations needed on angles, times and probabilities. -/
class RealArith (α : Type) extends Add α, Sub α, Mul α, Div α, Neg α, NatCast α, BEq α where
  /-- Half the circumference of the unit circle. -/
  pi : α
  /-- Distance from zero. -/
  abs : α → α
  /-- Square root. -/
  sqrt : α → α
  /-- Sine of an angle in radians. -/
  sin : α → α
  /-- Cosine of an angle in radians. -/
  cos : α → α
  /-- Natural exponential. -/
  exp : α → α
  /-- Angle of the point with the given ordinate and abscissa. -/
  atan2 : α → α → α
  /-- Nearest integer; a half goes away from zero. -/
  round : α → α
  /-- Strictly smaller. -/
  lt : α → α → Bool
  /-- Smaller or equal. -/
  le : α → α → Bool
  /-- The natural number left when the fraction is dropped. -/
  truncate : α → Nat

namespace RealArith

variable {α : Type} [RealArith α]

/-- The number zero. -/
def zero : α := ((0 : Nat) : α)

/-- The number one. -/
def one : α := ((1 : Nat) : α)

/-- The number two. -/
def two : α := ((2 : Nat) : α)

/-- The larger of two numbers; the first one if they are equal. -/
def max (x y : α) : α := if lt x y then y else x

/-- Whether a number equals itself, which fails only for a floating point value that is not a
number. -/
def isNumber (x : α) : Bool := x == x

/-- Length of the vector with the given coordinates, scaled by the longer one so that no square
overflows. -/
def hypot (x y : α) : α :=
  let p := abs x
  let q := abs y
  if !isNumber p then p
  else if !isNumber q then q
  else
    let (p, q) := if lt p q then (q, p) else (p, q)
    if p == zero then zero
    else
      let r := q / p
      p * sqrt (one + r * r)

end RealArith

end QuantumCompiler
