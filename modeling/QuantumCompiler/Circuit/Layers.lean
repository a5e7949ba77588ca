import QuantumCompiler.Circuit.Basic

/-!
# Layers

Every operation goes into the earliest layer after all operations it depends on.
`Schedule.step` takes one operation: it reads off its wires the first layer that is free on all
of them, and occupies that layer.  A barrier occupies no layer; it brings its wires (all qubits,
if it names none) to the same level.
-/

namespace QuantumCompiler

/-- Layers built so far, with the first layer that is still free on every wire. -/
structure Schedule where
  /-- First free layer of each qubit. -/
  qubitLevel : Array Nat
  /-- First free layer of each classical bit. -/
  clbitLevel : Array Nat
  /-- Indices of the operations of each layer. -/
  layers : Array (List Nat)

namespace Schedule

/-- No operation is scheduled. -/
def start (numQubits numClbits : Nat) : Schedule :=
  ⟨Array.replicate numQubits 0, Array.replicate numClbits 0, #[]⟩

/-- The greatest level on a list of wires. -/
def topLevel (levels : Array Nat) (wires : List Nat) : Nat :=
  wires.foldl (fun top w => max top (levels.getD w 0)) 0

/-- Sets the level of every wire of a list. -/
def setLevel (levels : Array Nat) (wires : List Nat) (level : Nat) : Array Nat :=
  wires.foldl (fun levels w => levels.setIfInBounds w level) levels

/-- Puts an index at the end of a layer, which may be the first one not there yet. -/
def place (layers : Array (List Nat)) (layer index : Nat) : Array (List Nat) :=
  if layer < layers.size then layers.modify layer (· ++ [index]) else layers.push [index]

/-- Schedules the operation with a given index. -/
def step {α : Type} (s : Schedule) (index : Nat) (op : Operation α) : Schedule :=
  if op.isBarrier then
    let wires := if op.qubits.isEmpty then List.range s.qubitLevel.size else op.qubits
    { s with qubitLevel := setLevel s.qubitLevel wires (topLevel s.qubitLevel wires) }
  else
    let layer := max (topLevel s.qubitLevel op.qubits) (topLevel s.clbitLevel op.clbits)
    { qubitLevel := setLevel s.qubitLevel op.qubits (layer + 1)
      clbitLevel := setLevel s.clbitLevel op.clbits (layer + 1)
      layers := place s.layers layer index }

/-- Schedules operations whose indices start at a given number. -/
def run {α : Type} (s : Schedule) : Nat → List (Operation α) → Schedule
  | _, [] => s
  | i, op :: rest => (s.step i op).run (i + 1) rest

end Schedule

namespace Circuit

variable {α : Type}

/-- The indices of the operations in each layer.  Barriers are in no layer. -/
def layers (c : Circuit α) : List (List Nat) :=
  ((Schedule.start c.numQubits c.numClbits).run 0 c.ops).layers.toList

/-- Number of layers. -/
def depth (c : Circuit α) : Nat := c.layers.length

end Circuit

end QuantumCompiler
