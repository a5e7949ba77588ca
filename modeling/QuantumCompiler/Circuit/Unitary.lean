import QuantumCompiler.Circuit.Operation
import QuantumCompiler.Numeric.Amplitude

/-!
# Matrices of gates

`Operation.unitary?` gives the matrix of a gate on one or two qubits.  The first operand is the
most significant bit of a row or column index.
-/

namespace QuantumCompiler

/-- A square matrix of amplitudes by rows. -/
abbrev GateMatrix (α : Type) := List (List (Amplitude α))

namespace GateMatrix

variable {α : Type} [RealArith α]

/-- An entry; outside of the matrix it is zero. -/
def entry (m : GateMatrix α) (row column : Nat) : Amplitude α :=
  (m.getD row []).getD column Amplitude.zero

/-- The square matrix with given entries. -/
def ofFn (size : Nat) (f : Nat → Nat → Amplitude α) : GateMatrix α :=
  (List.range size).map fun row => (List.range size).map (f row)

/-- The identity matrix. -/
def identity (size : Nat) : GateMatrix α :=
  ofFn size fun row column => if row == column then Amplitude.one else Amplitude.zero

/-- The matrix with given entries on its diagonal. -/
def diagonal (entries : List (Amplitude α)) : GateMatrix α :=
  ofFn entries.length fun row column =>
    if row == column then entries.getD row Amplitude.zero else Amplitude.zero

/-- The matrix product, of the size of the left factor. -/
def mul (m n : GateMatrix α) : GateMatrix α :=
  ofFn m.length fun row column =>
    (List.range m.length).foldl (fun sum k => sum + m.entry row k * n.entry k column)
      Amplitude.zero

/-- All entries of a matrix with their counterparts in another one, row by row. -/
def pairs (m n : GateMatrix α) : List (Amplitude α × Amplitude α) :=
  (List.range m.length).flatMap fun row =>
    (List.range m.length).map fun column => (m.entry row column, n.entry row column)

/-- The factor between two matrices, read off the first entry of the second one that exceeds a
tolerance. -/
def phaseBetween (tolerance : α) (m n : GateMatrix α) : Amplitude α :=
  (m.pairs n).foldl
    (fun phase (x, y) =>
      if phase.isZero && RealArith.lt tolerance y.abs then x / y else phase)
    Amplitude.zero

/-- Whether two matrices agree up to a factor of modulus one, within a tolerance. -/
def equalUpToPhase (tolerance : α) (m n : GateMatrix α) : Bool :=
  if m.length != n.length then false
  else
    let phase := phaseBetween tolerance m n
    if RealArith.lt tolerance (RealArith.abs (phase.abs - RealArith.one)) then false
    else !(m.pairs n).any fun (x, y) => RealArith.lt tolerance (x - phase * y).abs

end GateMatrix

namespace Operation

variable {α : Type} [RealArith α]

open Amplitude in
/-- The matrix of a standard gate on one or two qubits.  Missing parameters are zero. -/
def unitary? (op : Operation α) : Option (GateMatrix α) :=
  let θ := op.param 0
  let c : Amplitude α := ofReal (RealArith.cos (θ / RealArith.two))
  let s : Amplitude α := ofReal (RealArith.sin (θ / RealArith.two))
  let quarter : α := RealArith.pi / ((4 : Nat) : α)
  let half : α := RealArith.one / RealArith.two
  match op.kind with
  | .custom .. => none
  | .gate g =>
    match g with
    | .id => some (GateMatrix.identity 2)
    | .x => some [[zero, one], [one, zero]]
    | .y => some [[zero, negI], [i, zero]]
    | .z => some [[one, zero], [zero, ofReal (-RealArith.one)]]
    | .h =>
      let r : Amplitude α := ofReal (RealArith.sqrt half)
      some [[r, r], [r, -r]]
    | .s => some [[one, zero], [zero, i]]
    | .sdg => some [[one, zero], [zero, negI]]
    | .t => some [[one, zero], [zero, cis quarter]]
    | .tdg => some [[one, zero], [zero, cis (-quarter)]]
    | .sx => some [[⟨half, half⟩, ⟨half, -half⟩], [⟨half, -half⟩, ⟨half, half⟩]]
    | .sxdg => some [[⟨half, -half⟩, ⟨half, half⟩], [⟨half, half⟩, ⟨half, -half⟩]]
    | .rx => some [[c, negI * s], [negI * s, c]]
    | .ry => some [[c, -s], [s, c]]
    | .rz => some [[cis (-θ / RealArith.two), zero], [zero, cis (θ / RealArith.two)]]
    | .p => some [[one, zero], [zero, cis θ]]
    | .u =>
      let φ := op.param 1
      let lam := op.param 2
      some [[c, -cis lam * s], [cis φ * s, cis (φ + lam) * c]]
    | .prx =>
      let φ := op.param 1
      some [[c, negI * cis (-φ) * s], [negI * cis φ * s, c]]
    | .cx => some [[one, zero, zero, zero], [zero, one, zero, zero], [zero, zero, zero, one],
        [zero, zero, one, zero]]
    | .cy => some [[one, zero, zero, zero], [zero, one, zero, zero], [zero, zero, zero, negI],
        [zero, zero, i, zero]]
    | .cz => some (GateMatrix.diagonal [one, one, one, ofReal (-RealArith.one)])
    | .swap => some [[one, zero, zero, zero], [zero, zero, one, zero], [zero, one, zero, zero],
        [zero, zero, zero, one]]
    | .cp => some (GateMatrix.diagonal [one, one, one, cis θ])
    | .crz =>
      some (GateMatrix.diagonal [one, one, cis (-θ / RealArith.two), cis (θ / RealArith.two)])
    | .rzz => some (GateMatrix.diagonal
        [cis (-θ / RealArith.two), cis (θ / RealArith.two), cis (θ / RealArith.two),
          cis (-θ / RealArith.two)])
    | .ccx | .cswap | .measure | .reset | .barrier | .shuttle => none

end Operation

end QuantumCompiler
