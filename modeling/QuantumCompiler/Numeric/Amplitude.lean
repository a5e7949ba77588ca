import QuantumCompiler.Numeric.RealArith

/-!
# Complex amplitudes

An amplitude is a complex number over any `RealArith`.  Products and quotients follow the textbook
formulas term by term, so that running them on floating point numbers always takes the same
roundings.
-/

namespace QuantumCompiler

/-- A complex number by its real and imaginary part. -/
structure Amplitude (α : Type) where
  /-- Real part. -/
  re : α
  /-- Imaginary part. -/
  im : α
  deriving Repr

namespace Amplitude

variable {α : Type} [RealArith α]

/-- The amplitude on the real axis. -/
def ofReal (x : α) : Amplitude α := ⟨x, RealArith.zero⟩

/-- The amplitude zero. -/
def zero : Amplitude α := ofReal RealArith.zero

/-- The amplitude one. -/
def one : Amplitude α := ofReal RealArith.one

/-- The imaginary unit. -/
def i : Amplitude α := ⟨RealArith.zero, RealArith.one⟩

/-- The imaginary unit, negated. -/
def negI : Amplitude α := ⟨RealArith.zero, -RealArith.one⟩

/-- The amplitude of modulus one at an angle. -/
def cis (θ : α) : Amplitude α := ⟨RealArith.cos θ, RealArith.sin θ⟩

instance : Add (Amplitude α) := ⟨fun x y => ⟨x.re + y.re, x.im + y.im⟩⟩
instance : Sub (Amplitude α) := ⟨fun x y => ⟨x.re - y.re, x.im - y.im⟩⟩
instance : Neg (Amplitude α) := ⟨fun x => ⟨-x.re, -x.im⟩⟩
instance : Mul (Amplitude α) :=
  ⟨fun x y => ⟨x.re * y.re - x.im * y.im, x.re * y.im + x.im * y.re⟩⟩

/-- Whether both parts are zero. -/
def isZero (x : Amplitude α) : Bool := x.re == RealArith.zero && x.im == RealArith.zero

/-- The quotient, scaled by the larger part of the divisor so that no intermediate product
overflows. -/
def div (x y : Amplitude α) : Amplitude α :=
  if RealArith.le (RealArith.abs y.im) (RealArith.abs y.re) then
    let ratio := y.im / y.re
    let denominator := y.re + ratio * y.im
    ⟨(x.re + x.im * ratio) / denominator, (x.im - x.re * ratio) / denominator⟩
  else
    let ratio := y.re / y.im
    let denominator := y.im + ratio * y.re
    ⟨(x.re * ratio + x.im) / denominator, (x.im * ratio - x.re) / denominator⟩

instance : Div (Amplitude α) := ⟨div⟩

/-- Modulus. -/
def abs (x : Amplitude α) : α := RealArith.hypot x.re x.im

/-- Argument. -/
def arg (x : Amplitude α) : α := RealArith.atan2 x.im x.re

end Amplitude

end QuantumCompiler
