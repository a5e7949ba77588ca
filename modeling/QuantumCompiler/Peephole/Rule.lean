import QuantumCompiler.Circuit.Unitary

/-!
# Local rules on pairs of gates

When two gates follow each other on the same qubits they may cancel, merge into one rotation, or
fuse into one general rotation.  A gate may be the identity, and two gates may commute.  All
rules hold up to a factor of modulus one; angles and matrix entries are compared within a
tolerance.
-/

namespace QuantumCompiler.Peephole

open RealArith

variable {α : Type}

/-! ## Tables -/

/-- The kind that undoes a kind without parameters. -/
def inverse? : Gate → Option Gate
  | .x => some .x
  | .y => some .y
  | .z => some .z
  | .h => some .h
  | .cx => some .cx
  | .cy => some .cy
  | .cz => some .cz
  | .swap => some .swap
  | .ccx => some .ccx
  | .cswap => some .cswap
  | .s => some .sdg
  | .sdg => some .s
  | .t => some .tdg
  | .tdg => some .t
  | .sx => some .sxdg
  | .sxdg => some .sx
  | _ => none

/-- The kinds whose first parameter is an angle that adds up, with the number of half turns
after which the gate repeats up to a phase. -/
def halfTurns? : Gate → Option Nat
  | .rx | .ry | .rz | .p | .prx | .cp | .rzz => some 2
  | .crz => some 4
  | _ => none

/-- The kinds on two qubits whose operands can be exchanged. -/
def isSymmetric : Kind → Bool
  | .gate g => g == .cz || g == .swap || g == .cp || g == .rzz
  | .custom .. => false

/-- Whether two operations act on the same qubits, in the same order where it matters. -/
def sameQubits (a b : Operation α) : Bool :=
  a.qubits == b.qubits ||
    (isSymmetric a.kind &&
      match a.qubits, b.qubits with
      | [p, q], [r, s] => p == s && q == r
      | _, _ => false)

/-- Whether the second operation undoes the first one. -/
def isInversePair (a b : Operation α) : Bool :=
  match a.kind with
  | .gate g => (inverse? g).any (fun inverse => b.kind == .gate inverse) && sameQubits a b
  | .custom .. => false

/-! ## Commuting operations -/

/-- The axis along which a gate is diagonal on one of its qubits. -/
inductive Axis where
  /-- The axis of the phase gates. -/
  | z
  /-- The axis of the bit flip. -/
  | x
  deriving Repr, DecidableEq

/-- The axis along which a gate on a number of qubits is diagonal on the operand with a given
position.  A gate on several qubits is diagonal along the axes of its operands taken
together. -/
def axis? (g : Gate) (arity position : Nat) : Option Axis :=
  match g with
  | .id | .z | .s | .sdg | .t | .tdg | .rz | .p => some .z
  | .x | .sx | .sxdg | .rx => some .x
  | .cz | .cp | .crz | .rzz => some .z
  | .cx | .ccx => if position + 1 == arity then some .x else some .z
  | .cy | .cswap => if position == 0 then some .z else none
  | _ => none

/-- The axis of an operation on the operand with a given position. -/
def operandAxis? (op : Operation α) (position : Nat) : Option Axis :=
  op.kind.gate?.bind fun g => axis? g op.qubits.length position

/-- Whether two operations are known to commute: both are unitary, and on every qubit they share
they are diagonal along the same axis. -/
def commute (a b : Operation α) : Bool :=
  a.isUnitary && b.isUnitary &&
    a.qubits.zipIdx.all fun (q, i) =>
      match b.qubits.idxOf? q with
      | none => true
      | some j => (operandAxis? a i).isSome && operandAxis? a i == operandAxis? b j

/-! ## Rules on angles -/

variable [RealArith α]

/-- How far apart equal angles and equal matrix entries may be. -/
def tolerance : α := one / ((Nat.pow 10 9 : Nat) : α)

/-- A full turn. -/
def turn : α := two * pi

/-- An angle reduced by a multiple of a period to at most half of it on either side of zero.  An
angle close to zero becomes zero. -/
def normalise (θ period : α) : α :=
  let reduced := θ - period * round (θ / period)
  if lt (abs reduced) tolerance then zero else reduced

/-- The period of the first parameter of a kind that merges. -/
def period? (kind : Kind) : Option α :=
  (kind.gate?.bind halfTurns?).map fun n => (n : α) * pi

/-- Whether two rotations have the same axis.  That of a phased rotation is its second
parameter. -/
def sameAxis (a b : Operation α) : Bool :=
  if a.kind == .gate .prx then lt (abs (normalise (a.param 1 - b.param 1) turn)) tolerance
  else true

/-- The rotation that has the effect of two rotations about the same axis. -/
def merge? (a b : Operation α) : Option (Operation α) :=
  match (period? a.kind : Option α) with
  | none => none
  | some period =>
    if a.kind == b.kind && sameQubits a b && sameAxis a b then
      some { a with params := a.params.set 0 (normalise (a.param 0 + b.param 0) period) }
    else none

/-- Whether an operation is the identity up to a phase. -/
def isIdentity (op : Operation α) : Bool :=
  op.kind == .gate .id ||
    (op.isUnitary &&
      match op.unitary? with
      | some m => GateMatrix.equalUpToPhase tolerance m (GateMatrix.identity m.length)
      | none => false)

/-- The parameters of the general rotation with a given matrix, up to a phase. -/
def eulerAngles (m : GateMatrix α) : α × α × α :=
  let a := m.entry 0 0
  let b := m.entry 0 1
  let c := m.entry 1 0
  let d := m.entry 1 1
  let θ := two * atan2 c.abs a.abs
  let (φ, lam) :=
    if lt c.abs tolerance then (zero, d.arg - a.arg)
    else if lt a.abs tolerance then (c.arg - (-b).arg, zero)
    else (c.arg - a.arg, (-b).arg - a.arg)
  (θ, normalise φ turn, normalise lam turn)

/-- The general rotation that has the effect of two gates on one qubit. -/
def fuse? (a b : Operation α) : Option (Operation α) :=
  match a.qubits with
  | [q] =>
    if b.qubits == [q] then
      match a.unitary?, b.unitary? with
      | some ma, some mb =>
        let (θ, φ, lam) := eulerAngles (mb.mul ma)
        some (.ofGate .u [θ, φ, lam] [q])
      | _, _ => none
    else none
  | _ => none

end QuantumCompiler.Peephole
