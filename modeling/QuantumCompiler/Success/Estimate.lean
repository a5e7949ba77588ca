import QuantumCompiler.Circuit.Layers
import QuantumCompiler.Device.Basic
import QuantumCompiler.Success.Config

/-!
# Estimated success probability

Each layer of a circuit succeeds with the product of the fidelities of its operations, times the
decay of every qubit that the circuit uses but the layer does not.  A layer lasts as long as its
longest operation.
-/

namespace QuantumCompiler.Success

/-- The success probability of a circuit, layer by layer. -/
structure Estimate (α : Type) where
  /-- Probability of each layer. -/
  layers : List α
  /-- Probability of all layers up to each one. -/
  cumulative : List α
  /-- Probability of the whole circuit. -/
  total : α
  deriving Repr

variable {α : Type} [RealArith α]

/-- The first number if it is positive, else the second one. -/
def measuredOr (measured assumed : α) : α :=
  if RealArith.lt RealArith.zero measured then measured else assumed

/-- Relaxation and dephasing time of a physical qubit. -/
def coherence (d : Device α) (config : Config α) (q : Nat) : α × α :=
  (measuredOr (d.site q).t1 config.t1, measuredOr (d.site q).t2 config.t2)

/-- Probability of a wrong measurement result on a physical qubit. -/
def readoutError (d : Device α) (config : Config α) (q : Nat) : α :=
  measuredOr (d.site q).readoutError config.readoutError

/-- Fidelity and duration of an operation. -/
def characterise (d : Device α) (config : Config α) (op : Operation α) : α × α :=
  match d.calibration? op.kind with
  | some c => (c.fidelity, c.duration)
  | none =>
    if op.isMeasure then
      (op.qubits.foldl (fun f q => f * (RealArith.one - readoutError d config q)) RealArith.one,
        config.measureDuration)
    else if op.kind == .gate .reset then (config.singleQubitFidelity, config.measureDuration)
    else if 2 ≤ op.arity then (config.multiQubitFidelity, config.multiQubitDuration)
    else (config.singleQubitFidelity, config.singleQubitDuration)

/-- The decay of an idle qubit over a time. -/
def decay (d : Device α) (config : Config α) (duration : α) (q : Nat) : α :=
  let (t1, t2) := coherence d config q
  RealArith.exp (-duration / t1) * RealArith.exp (-duration / t2)

/-- The success probability of the operations of one layer, given the qubits that the circuit
uses. -/
def layerProbability (d : Device α) (config : Config α) (active : List Nat)
    (ops : List (Operation α)) : α :=
  let (fidelity, duration) := ops.foldl
    (fun (fidelity, duration) op =>
      let (f, t) := characterise d config op
      (fidelity * f, RealArith.max duration t))
    (RealArith.one, RealArith.zero)
  let idle := active.filter fun q => !ops.any (·.actsOn q)
  idle.foldl (fun fidelity q => fidelity * decay d config duration q) fidelity

/-- The products of a list up to each element, from a given factor on. -/
def runningProducts (factor : α) : List α → List α
  | [] => []
  | x :: rest => (factor * x) :: runningProducts (factor * x) rest

/-- The operations of each layer. -/
def layerOps (c : Circuit α) : List (List (Operation α)) :=
  let ops := c.ops.toArray
  c.layers.map fun layer => layer.filterMap fun i => ops[i]?

/-- The estimated success probability of a circuit on a device. -/
def estimate (d : Device α) (config : Config α) (c : Circuit α) : Estimate α :=
  let active := c.activeQubits.elements
  let layers := (layerOps c).map (layerProbability d config active)
  let cumulative := runningProducts RealArith.one layers
  { layers, cumulative, total := cumulative.getLast?.getD RealArith.one }

end QuantumCompiler.Success
