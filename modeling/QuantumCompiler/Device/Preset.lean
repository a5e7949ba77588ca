import QuantumCompiler.Device.Basic
import QuantumCompiler.Numeric.Binary64
import QuantumCompiler.Text.Quoted

/-!
# Device presets

Families of devices that share a topology, native kinds and typical calibration data, available at
any size.
-/

namespace QuantumCompiler

/-- A family of devices. -/
structure Preset where
  /-- Name of the family. -/
  name : String
  /-- One line on the family. -/
  description : String
  /-- Number of qubits if none is asked for. -/
  size : Nat
  /-- Shape of the coupling map at a given size. -/
  topology : Nat → Topology
  /-- Names of the native kinds. -/
  natives : List String
  /-- Calibration of every qubit, if there is one. -/
  site : Option (Site Float) := none
  /-- Calibration of the native kinds. -/
  operations : List (Calibration Float) := []
  /-- Number of zones, at most. -/
  zones : Nat := 0

/-- Why a preset gives no device. -/
inductive PresetError where
  /-- There is no preset of this name. -/
  | unknown (name : String) (available : List String)
  /-- The descriptor of the preset is refused. -/
  | device (error : DeviceError)
  deriving Repr, DecidableEq

/-- The wording of a refused preset. -/
def PresetError.message : PresetError → String
  | unknown name available =>
    "unknown device preset " ++ Text.quoted name ++ " (available: " ++
      ", ".intercalate available ++ ")"
  | device e => e.message

namespace Preset

/-- Superconducting qubits around a resonator. -/
def iqm : Preset :=
  { name := "iqm"
    description := "superconducting, star topology, phased-rx + cz"
    size := 5
    topology := .star
    natives := ["prx", "cz", "measure"]
    site := some ⟨45e-6, 30e-6, 0.03⟩
    operations :=
      [ ⟨"prx", 20e-9, 0.999, 1⟩, ⟨"cz", 40e-9, 0.99, 2⟩, ⟨"measure", 1.5e-6, 0.97, 1⟩ ] }

/-- A superconducting chain with controlled inversion. -/
def ibm : Preset :=
  { name := "ibm"
    description := "superconducting, linear topology, rz/sx/x + cx"
    size := 5
    topology := .linear
    natives := ["id", "rz", "sx", "x", "cx", "measure", "reset"]
    site := some ⟨120e-6, 90e-6, 0.02⟩
    operations :=
      [ ⟨"id", 35e-9, 0.9997, 1⟩, ⟨"rz", 0, 1, 1⟩, ⟨"sx", 35e-9, 0.9997, 1⟩,
        ⟨"x", 35e-9, 0.9997, 1⟩, ⟨"cx", 300e-9, 0.99, 2⟩, ⟨"measure", 1e-6, 0.98, 1⟩,
        ⟨"reset", 1e-6, 0.99, 1⟩ ] }

/-- A superconducting chain with controlled phases. -/
def heron : Preset :=
  { name := "heron"
    description := "superconducting, linear topology, rz/sx/x/rx + cz/rzz"
    size := 5
    topology := .linear
    natives := ["id", "rz", "sx", "x", "rx", "cz", "rzz", "measure", "reset"]
    site := some ⟨250e-6, 150e-6, 0.015⟩
    operations :=
      [ ⟨"id", 32e-9, 0.9998, 1⟩, ⟨"rz", 0, 1, 1⟩, ⟨"sx", 32e-9, 0.9998, 1⟩,
        ⟨"x", 32e-9, 0.9998, 1⟩, ⟨"rx", 32e-9, 0.9998, 1⟩, ⟨"cz", 68e-9, 0.997, 2⟩,
        ⟨"rzz", 68e-9, 0.996, 2⟩,
        ⟨"measure", 1.2e-6, 0.985, 1⟩, ⟨"reset", 1.2e-6, 0.99, 1⟩ ] }

/-- Atoms that are moved between two zones. -/
def neutralAtom : Preset :=
  { name := "neutral-atom"
    description := "neutral atoms, all-to-all topology in two zones, rz/rx/ry + cz + shuttle"
    size := 6
    topology := .full
    natives := ["rz", "rx", "ry", "cz", "shuttle", "measure"]
    site := some ⟨10, 1.5, 0.05⟩
    operations :=
      [ ⟨"rz", 1e-6, 0.999, 1⟩, ⟨"rx", 1e-6, 0.998, 1⟩, ⟨"ry", 1e-6, 0.998, 1⟩,
        ⟨"cz", 0.5e-6, 0.995, 2⟩, ⟨"shuttle", 100e-6, 0.999, 1⟩, ⟨"measure", 5e-3, 0.95, 1⟩ ]
    zones := 2 }

/-- The standard kinds on at most two qubits that are executed anywhere, in order of their
names. -/
def idealKinds : List String :=
  Gate.sortedNames.filter fun name =>
    match Gate.ofName? name with
    | some .barrier | some .shuttle | none => false
    | some g => g.numQubits ≤ 2

/-- A device without calibration data on which nearly everything is native. -/
def ideal : Preset :=
  { name := "ideal"
    description := "uncalibrated, all-to-all topology, every standard one and two qubit operation"
    size := 5
    topology := .full
    natives := idealKinds }

/-- All presets in order of their names. -/
def all : List Preset := [heron, ibm, ideal, iqm, neutralAtom]

/-- The names of all presets. -/
def names : List String := all.map (·.name)

/-- The preset of a name. -/
def find? (name : String) : Option Preset := all.find? (·.name == name)

/-- The descriptor of a preset at a size, which is its usual one for zero. -/
def descriptor (p : Preset) (numQubits : Nat) : Descriptor Float :=
  let n := if numQubits == 0 then p.size else numQubits
  { name := s!"{p.name}-{n}"
    numQubits := n
    couplingMap := (p.topology n).edges.map fun e => [e.1, e.2]
    nativeGates := p.natives
    sites := match p.site with
      | some site => List.replicate n site
      | none => []
    operations := p.operations
    zones := min p.zones n }

/-- The device of a named preset. -/
def device (name : String) (numQubits : Nat) : Except PresetError (Device Float) :=
  match find? name with
  | none => .error (.unknown name names)
  | some p =>
    match Device.ofDescriptor (p.descriptor numQubits) with
    | .ok d => .ok d
    | .error e => .error (.device e)

end Preset

end QuantumCompiler
