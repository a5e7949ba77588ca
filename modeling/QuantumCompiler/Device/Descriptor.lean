import QuantumCompiler.Validation

/-!
# Device descriptors

The plain form of a device, as it is read from and written to files.  Times are in seconds.  A
zero in the calibration of a site means that the value was not measured.
-/

namespace QuantumCompiler

/-- What was measured on one physical qubit. -/
structure Site (α : Type) where
  /-- Relaxation time. -/
  t1 : α
  /-- Dephasing time. -/
  t2 : α
  /-- Probability of a wrong measurement result. -/
  readoutError : α
  deriving Repr

/-- What was measured on a native kind. -/
structure Calibration (α : Type) where
  /-- Name of the kind. -/
  name : String
  /-- Time taken. -/
  duration : α
  /-- Probability of success. -/
  fidelity : α
  /-- Number of qubits acted on. -/
  numQubits : Nat
  deriving Repr

/-- The plain form of a device. -/
structure Descriptor (α : Type) where
  /-- Name of the device. -/
  name : String := ""
  /-- Number of physical qubits. -/
  numQubits : Nat := 0
  /-- Coupled pairs. -/
  couplingMap : List (List Nat) := []
  /-- Names of the native kinds. -/
  nativeGates : List String := []
  /-- Calibration of each qubit, or nothing. -/
  sites : List (Site α) := []
  /-- Calibration of native kinds. -/
  operations : List (Calibration α) := []
  /-- Number of interaction zones; zero and one mean that the device is not zoned. -/
  zones : Nat := 0
  deriving Repr

variable {α : Type} [RealArith α]

/-- A site without measurements. -/
def Site.uncalibrated : Site α := ⟨RealArith.zero, RealArith.zero, RealArith.zero⟩

/-- Violations in the calibration of a site. -/
def Site.violations (path : String) (s : Site α) : List Violation :=
  Violation.check path "T1" [Violation.nonnegative s.t1] ++
  Violation.check path "T2" [Violation.nonnegative s.t2] ++
  Violation.check path "ReadoutError" [Violation.nonnegative s.readoutError,
    Violation.belowOne s.readoutError]

/-- Violations in the calibration of a kind. -/
def Calibration.violations (path : String) (c : Calibration α) : List Violation :=
  Violation.check path "Name" [("required", c.name != "")] ++
  Violation.check path "Duration" [Violation.nonnegative c.duration] ++
  Violation.check path "Fidelity" [Violation.positive c.fidelity,
    Violation.atMostOne c.fidelity] ++
  Violation.check path "NumQubits" [("gte", 1 ≤ c.numQubits)]

namespace Descriptor

/-- Violations of the items of a list, by their indices. -/
def itemViolations {β : Type} (f : Nat → β → List Violation) (items : List β) : List Violation :=
  (items.zipIdx.map fun (x, i) => f i x).flatten

/-- All violations in a descriptor. -/
def violations (d : Descriptor α) : List Violation :=
  Violation.check "Descriptor" "Name" [("required", d.name != "")] ++
  Violation.check "Descriptor" "NumQubits" [("gte", 1 ≤ d.numQubits)] ++
  itemViolations
    (fun i e => Violation.check "Descriptor" s!"CouplingMap[{i}]" [("len", e.length == 2)])
    d.couplingMap ++
  Violation.check "Descriptor" "NativeGates" [("min", !d.nativeGates.isEmpty)] ++
  itemViolations
    (fun i name => Violation.check "Descriptor" s!"NativeGates[{i}]" [("required", name != "")])
    d.nativeGates ++
  itemViolations (fun i s => s.violations s!"Descriptor.Sites[{i}]") d.sites ++
  itemViolations (fun i c => c.violations s!"Descriptor.Operations[{i}]") d.operations

end Descriptor

end QuantumCompiler
