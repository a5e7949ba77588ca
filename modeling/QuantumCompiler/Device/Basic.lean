import QuantumCompiler.Circuit.Kind
import QuantumCompiler.Device.Descriptor
import QuantumCompiler.Device.GateSet
import QuantumCompiler.Device.Topology

/-!
# Devices

A device has a coupling map, native kinds, calibration data and interaction zones.  Its qubits are
split evenly over the zones in order of their numbers, and the last zone takes the remainder.

`Device.ofDescriptor` checks a descriptor and `Device.descriptor` gives one back.
-/

namespace QuantumCompiler

/-- A target processor. -/
structure Device (α : Type) where
  /-- Name of the device. -/
  name : String
  /-- Which qubits can interact. -/
  coupling : CouplingMap
  /-- Kinds executed without decomposition. -/
  natives : GateSet
  /-- Calibration of each qubit. -/
  sites : Array (Site α)
  /-- Calibration of kinds, each kind once. -/
  operations : List (Calibration α)
  /-- Number of interaction zones. -/
  zones : Nat
  /-- There is a zone. -/
  zones_pos : 0 < zones
  /-- There are no more zones than qubits, unless there is just one. -/
  zones_le : zones ≤ max coupling.size 1

/-- Why a descriptor makes no device. -/
inductive DeviceError where
  /-- Some fields break their rules. -/
  | invalid (violations : List Violation)
  /-- The number of calibrated sites is not the number of qubits. -/
  | siteCount (sites qubits : Nat)
  /-- There are more zones than qubits. -/
  | zoneCount (zones qubits : Nat)
  /-- The edges make no coupling map. -/
  | coupling (device : String) (error : CouplingError)
  /-- A kind is calibrated twice. -/
  | duplicateCalibration (device kind : String)
  /-- A standard kind is calibrated for a wrong number of qubits. -/
  | calibrationArity (device kind : String) (found expected : Nat)
  deriving Repr, DecidableEq

/-- The wording of a refused descriptor. -/
def DeviceError.message : DeviceError → String
  | invalid violations => "invalid device descriptor: " ++ Violation.messages violations
  | siteCount sites qubits =>
    s!"invalid device descriptor: {sites} site calibrations given for {qubits} qubits"
  | zoneCount zones qubits =>
    s!"invalid device descriptor: {zones} zones given for {qubits} qubits"
  | coupling device error => s!"device {device}: {error.message}"
  | duplicateCalibration device kind => s!"device {device}: duplicate calibration for {kind}"
  | calibrationArity device kind found expected =>
    s!"device {device}: calibration for {kind} has {found} qubits (expected {expected})"

namespace Device

variable {α : Type}

/-- Number of physical qubits. -/
def numQubits (d : Device α) : Nat := d.coupling.size

/-- Whether a kind is executed without decomposition. -/
def isNative (d : Device α) (kind : Kind) : Bool := d.natives.contains kind

/-- The zone in which a qubit is at rest. -/
def zoneOf (d : Device α) (q : Nat) : Nat := min (q / (d.numQubits / d.zones)) (d.zones - 1)

/-- The device split into a number of zones, between one and the number of qubits. -/
def withZones (d : Device α) (zones : Nat) : Device α :=
  { d with
    zones := max (min zones d.coupling.size) 1
    zones_pos := by omega
    zones_le := by omega }

/-- The calibration of a kind. -/
def calibration? (d : Device α) (kind : Kind) : Option (Calibration α) :=
  d.operations.find? (·.name == kind.name)

/-- The edges of a descriptor, whose entries are pairs. -/
def edgesOf (pairs : List (List Nat)) : List Edge := pairs.map fun e => (e.getD 0 0, e.getD 1 0)

/-- The first calibration that repeats a kind or does not fit its kind. -/
def calibrationError? (device : String) : List String → List (Calibration α) → Option DeviceError
  | _, [] => none
  | seen, c :: rest =>
    if seen.contains c.name then some (.duplicateCalibration device c.name)
    else
      let expected := ((Kind.ofName c.name).gate?.map Gate.numQubits).getD 0
      if expected != 0 && expected != c.numQubits then
        some (.calibrationArity device c.name c.numQubits expected)
      else calibrationError? device (c.name :: seen) rest

variable [RealArith α]

/-- The first reason to refuse a descriptor apart from its edges and calibrations. -/
def descriptorError? (d : Descriptor α) : Option DeviceError :=
  if !d.violations.isEmpty then some (.invalid d.violations)
  else if !d.sites.isEmpty && d.sites.length != d.numQubits then
    some (.siteCount d.sites.length d.numQubits)
  else if d.numQubits < d.zones then some (.zoneCount d.zones d.numQubits)
  else none

theorem zones_le_of_descriptorError?_eq_none {d : Descriptor α} (h : descriptorError? d = none) :
    d.zones ≤ d.numQubits := by
  unfold descriptorError? at h
  split at h
  · cases h
  · split at h
    · cases h
    · split at h
      · cases h
      · omega

/-- The device with a given descriptor. -/
def ofDescriptor (d : Descriptor α) : Except DeviceError (Device α) :=
  match checked : descriptorError? d with
  | some e => .error e
  | none =>
    match built : CouplingMap.ofEdges d.numQubits (edgesOf d.couplingMap) with
    | .error e => .error (.coupling d.name e)
    | .ok coupling =>
      match calibrationError? d.name [] d.operations with
      | some e => .error e
      | none => .ok
        { name := d.name
          coupling
          natives := GateSet.ofNames d.nativeGates
          sites :=
            if d.sites.isEmpty then Array.replicate d.numQubits Site.uncalibrated
            else d.sites.toArray
          operations := d.operations
          zones := max d.zones 1
          zones_pos := by omega
          zones_le := by
            have size := CouplingMap.size_of_ofEdges built
            have zones := zones_le_of_descriptorError?_eq_none checked
            omega }

/-- A device without calibration data and zones. -/
def uncalibrated (name : String) (coupling : CouplingMap) (natives : GateSet) : Device α :=
  { name, coupling, natives
    sites := Array.replicate coupling.size Site.uncalibrated
    operations := []
    zones := 1
    zones_pos := by omega
    zones_le := by omega }

/-- The calibration of a qubit. -/
def site (d : Device α) (q : Nat) : Site α := d.sites.getD q Site.uncalibrated

/-- The plain form of a device. -/
def descriptor (d : Device α) : Descriptor α :=
  { name := d.name
    numQubits := d.numQubits
    couplingMap := d.coupling.edges.map fun e => [e.1, e.2]
    nativeGates := d.natives.names
    sites := d.sites.toList
    operations := d.operations.mergeSort fun a b => decide (a.name ≤ b.name)
    zones := if d.zones == 1 then 0 else d.zones }

end Device

end QuantumCompiler
