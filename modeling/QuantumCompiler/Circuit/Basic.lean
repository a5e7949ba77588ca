import QuantumCompiler.Circuit.Operation
import QuantumCompiler.Qubits.BitSet

/-!
# Circuits

A circuit is a list of operations in time order over fixed numbers of qubits and classical bits.
`Circuit.add` and `Circuit.ofOperations` refuse an operation with a fault, so what they build
satisfies `Circuit.WellFormed`.
-/

namespace QuantumCompiler

/-- A sequence of operations over numbered qubits and classical bits. -/
structure Circuit (α : Type) where
  /-- Number of qubits. -/
  numQubits : Nat
  /-- Number of classical bits. -/
  numClbits : Nat
  /-- Operations in time order. -/
  ops : List (Operation α) := []
  deriving BEq

namespace Circuit

variable {α : Type}

/-- Every operation fits into the circuit. -/
def WellFormed (c : Circuit α) : Prop := ∀ op ∈ c.ops, op.WellFormed c.numQubits c.numClbits

/-- The circuit with one more operation at its end. -/
def add (c : Circuit α) (op : Operation α) : Except Fault (Circuit α) :=
  match op.fault? c.numQubits c.numClbits with
  | some fault => .error fault
  | none => .ok { c with ops := c.ops ++ [op] }

/-- The first operation of a list with a fault, by its index. -/
def firstFault? (numQubits numClbits : Nat) : Nat → List (Operation α) → Option (Nat × Fault)
  | _, [] => none
  | i, op :: rest =>
    match op.fault? numQubits numClbits with
    | some fault => some (i, fault)
    | none => firstFault? numQubits numClbits (i + 1) rest

/-- The circuit with the given operations, or the first of them that has a fault. -/
def ofOperations (numQubits numClbits : Nat) (ops : List (Operation α)) :
    Except (Nat × Fault) (Circuit α) :=
  match firstFault? numQubits numClbits 0 ops with
  | some fault => .error fault
  | none => .ok { numQubits, numClbits, ops }

/-- Total number of operations, barriers included. -/
def size (c : Circuit α) : Nat := c.ops.length

/-- Number of operations that are not barriers. -/
def gateCount (c : Circuit α) : Nat := c.ops.countP (!·.isBarrier)

/-- Number of operations on two or more qubits, barriers left out. -/
def multiQubitCount (c : Circuit α) : Nat := c.ops.countP fun op => !op.isBarrier && 2 ≤ op.arity

/-- Number of operations of a kind. -/
def kindCount (c : Circuit α) (kind : Kind) : Nat := c.ops.countP (·.kind == kind)

/-- The kinds that occur, each once, with the number of their operations. -/
def kindCounts (c : Circuit α) : List (Kind × Nat) :=
  (c.ops.map (·.kind)).eraseDups.map fun kind => (kind, c.kindCount kind)

/-- The qubits that some operation other than a barrier acts on. -/
def activeQubits (c : Circuit α) : BitSet :=
  c.ops.foldl (fun active op => if op.isBarrier then active else active.insertAll op.qubits)
    (BitSet.ofSize c.numQubits.toUInt64)

/-- Why a circuit cannot be relabelled. -/
inductive RelabelError where
  /-- The mapping does not cover every qubit. -/
  | short (covered width : Nat)
  /-- A renamed operation does not fit. -/
  | fault (fault : Fault)
  deriving Repr, DecidableEq

/-- The wording of a failed relabelling. -/
def RelabelError.message : RelabelError → String
  | short covered width => s!"mapping covers {covered} qubits, circuit has {width}"
  | fault f => f.message

/-- The circuit of a new width in which every qubit `q` is renamed to `mapping[q]`. -/
def relabel (c : Circuit α) (mapping : List Nat) (width : Nat) :
    Except RelabelError (Circuit α) :=
  if mapping.length < c.numQubits then .error (.short mapping.length c.numQubits)
  else
    match ofOperations width c.numClbits (c.ops.map (·.mapQubits fun q => mapping.getD q q)) with
    | .ok renamed => .ok renamed
    | .error (_, f) => .error (.fault f)

/-- Text of a circuit: its registers, then one operation a line. -/
def text (c : Circuit Float) : String :=
  let clbits := if c.numClbits == 0 then "" else s!"creg c[{c.numClbits}];\n"
  s!"qreg q[{c.numQubits}];\n" ++ clbits ++ String.join (c.ops.map fun op => op.text ++ ";\n")

end Circuit

end QuantumCompiler
