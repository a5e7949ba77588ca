import QuantumCompiler.Circuit.Kind
import QuantumCompiler.Numeric.Decimal

/-!
# Operations

An operation is a kind with its parameters, the qubits it acts on in order, and the classical bits
it writes.  For controlled gates the controls come first.

`Operation.fault?` finds the first reason why an operation does not fit into a circuit of given
widths, and `Operation.WellFormed` is the absence of one.
-/

namespace QuantumCompiler

/-- A gate, measurement, reset or directive with its operands. -/
structure Operation (α : Type) where
  /-- What is done. -/
  kind : Kind
  /-- Parameters, angles in radians for a rotation. -/
  params : List α := []
  /-- Qubits acted on, in order. -/
  qubits : List Nat := []
  /-- Classical bits written. -/
  clbits : List Nat := []
  deriving BEq

/-- Why an operation does not fit into a circuit. -/
inductive Fault where
  /-- The kind has an empty name. -/
  | unnamed
  /-- A qubit lies outside the circuit. -/
  | qubitOutOfBounds (kind : String) (qubit width : Nat)
  /-- A qubit is listed twice. -/
  | repeatedQubit (kind : String) (qubit : Nat)
  /-- A classical bit lies outside the circuit. -/
  | clbitOutOfBounds (kind : String) (clbit width : Nat)
  /-- A custom operation has no operand. -/
  | noQubits (kind : String)
  /-- A barrier has parameters or classical bits. -/
  | overloadedBarrier
  /-- A standard operation has the wrong number of qubits. -/
  | qubitCount (kind : String) (expected found : Nat)
  /-- A standard operation has the wrong number of parameters. -/
  | paramCount (kind : String) (expected found : Nat)
  /-- A standard operation has the wrong number of classical bits. -/
  | clbitCount (kind : String) (expected found : Nat)
  deriving Repr, DecidableEq

/-- The wording of a fault. -/
def Fault.message : Fault → String
  | unnamed => "operation has no kind"
  | qubitOutOfBounds kind q n => s!"{kind}: qubit {q} out of bounds (circuit has {n} qubits)"
  | repeatedQubit kind q => s!"{kind}: qubit {q} used more than once"
  | clbitOutOfBounds kind c n =>
    s!"{kind}: classical bit {c} out of bounds (circuit has {n} classical bits)"
  | noQubits kind => s!"{kind}: operation acts on no qubits"
  | overloadedBarrier => "barrier cannot have parameters or classical bits"
  | qubitCount kind expected found => s!"{kind}: expected {expected} qubits, found {found}"
  | paramCount kind expected found => s!"{kind}: expected {expected} parameters, found {found}"
  | clbitCount kind expected found =>
    s!"{kind}: expected {expected} classical bits, found {found}"

namespace Operation

variable {α : Type}

/-- An operation of a standard kind. -/
def ofGate (g : Gate) (params : List α) (qubits : List Nat) : Operation α :=
  { kind := .gate g, params, qubits }

/-- Measurement of a qubit into a classical bit. -/
def measure (qubit clbit : Nat) : Operation α :=
  { kind := .gate .measure, qubits := [qubit], clbits := [clbit] }

/-- Exchange of two qubits. -/
def swap (a b : Nat) : Operation α := ofGate .swap [] [a, b]

/-- Move of a qubit from one zone to another. -/
def shuttle [NatCast α] (qubit source target : Nat) : Operation α :=
  ofGate .shuttle [(source : α), (target : α)] [qubit]

/-- Whether the operation moves a qubit between zones. -/
def isShuttle (op : Operation α) : Bool := op.kind == .gate .shuttle

/-- Whether the operation is a barrier, which orders operations and is not a gate itself. -/
def isBarrier (op : Operation α) : Bool := op.kind == .gate .barrier

/-- Whether the operation is a measurement. -/
def isMeasure (op : Operation α) : Bool := op.kind == .gate .measure

/-- Whether the operation is a standard unitary gate. -/
def isUnitary (op : Operation α) : Bool := op.kind.gate?.any Gate.isUnitary

/-- Number of qubits acted on. -/
def arity (op : Operation α) : Nat := op.qubits.length

/-- Whether a qubit is among the operands. -/
def actsOn (op : Operation α) (qubit : Nat) : Bool := op.qubits.contains qubit

/-- The operation on other qubits. -/
def withQubits (op : Operation α) (qubits : List Nat) : Operation α := { op with qubits }

/-- The operation with every qubit renamed. -/
def mapQubits (f : Nat → Nat) (op : Operation α) : Operation α := op.withQubits (op.qubits.map f)

section Params

variable [RealArith α]

/-- A parameter by its position; a missing one is zero. -/
def param (op : Operation α) (i : Nat) : α := op.params.getD i RealArith.zero

/-- Source and target zone of a shuttle, if both are given. -/
def zones? (op : Operation α) : Option (Nat × Nat) :=
  match op.params with
  | source :: target :: _ => some (RealArith.truncate source, RealArith.truncate target)
  | _ => none

end Params

/-! ## Well-formed operations -/

/-- The first qubit of a list that lies outside a circuit or occurs earlier in the list.  The
qubits before the list are given as well. -/
def qubitFault? (kind : String) (width : Nat) : List Nat → List Nat → Option Fault
  | _, [] => none
  | seen, q :: rest =>
    if width ≤ q then some (.qubitOutOfBounds kind q width)
    else if seen.contains q then some (.repeatedQubit kind q)
    else qubitFault? kind width (q :: seen) rest

/-- The fault in the shape of an operation: a standard kind has its own numbers of operands, a
custom kind acts on at least one qubit. -/
def shapeFault? (op : Operation α) : Option Fault :=
  match op.kind with
  | .custom name _ => if op.qubits.isEmpty then some (.noQubits name) else none
  | .gate .barrier =>
    if op.params.isEmpty && op.clbits.isEmpty then none else some .overloadedBarrier
  | .gate g =>
    if op.qubits.length != g.numQubits then some (.qubitCount g.name g.numQubits op.qubits.length)
    else if op.params.length != g.numParams then
      some (.paramCount g.name g.numParams op.params.length)
    else if op.clbits.length != g.numClbits then
      some (.clbitCount g.name g.numClbits op.clbits.length)
    else none

/-- The first fault of an operation in a circuit with the given numbers of qubits and classical
bits. -/
def fault? (numQubits numClbits : Nat) (op : Operation α) : Option Fault :=
  if op.kind.name == "" then some .unnamed
  else
    match qubitFault? op.kind.name numQubits [] op.qubits with
    | some fault => some fault
    | none =>
      match op.clbits.find? (numClbits ≤ ·) with
      | some c => some (.clbitOutOfBounds op.kind.name c numClbits)
      | none => op.shapeFault?

/-- The operation fits into a circuit with the given numbers of qubits and classical bits. -/
def WellFormed (numQubits numClbits : Nat) (op : Operation α) : Prop :=
  op.fault? numQubits numClbits = none

instance (numQubits numClbits : Nat) (op : Operation α) :
    Decidable (op.WellFormed numQubits numClbits) :=
  inferInstanceAs (Decidable (_ = none))

/-! ## Text -/

/-- Numbers in operations and circuits: an exponent below `1e-4` and from `1e+06` on, with at
least two digits. -/
def numberStyle : Decimal.Style := ⟨-4, 6, 2⟩

/-- Text of an operation without the closing semicolon. -/
def text (op : Operation Float) : String :=
  let params :=
    if op.params.isEmpty then ""
    else "(" ++ ",".intercalate (op.params.map numberStyle.text) ++ ")"
  let qubits :=
    if op.qubits.isEmpty then ""
    else " " ++ ",".intercalate (op.qubits.map fun q => s!"q[{q}]")
  let clbits := String.join (op.clbits.map fun c => s!" -> c[{c}]")
  op.kind.name ++ params ++ qubits ++ clbits

end Operation

end QuantumCompiler
