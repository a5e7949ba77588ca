import QuantumCompiler.Device.Json
import QuantumCompiler.Yaml.Decode
import QuantumCompiler.Yaml.Reader

/-!
# Device descriptors as YAML

The keys are those of the JSON form, in exact case.  Unknown keys are passed over.
-/

namespace QuantumCompiler

/-- The entries of a site. -/
def Site.yamlFields : List (Yaml.Field (Site Float)) :=
  [ Yaml.field "t1" Yaml.decodeFloat (·.t1) fun t1 s => { s with t1 },
    Yaml.field "t2" Yaml.decodeFloat (·.t2) fun t2 s => { s with t2 },
    Yaml.field "readout_error" Yaml.decodeFloat (·.readoutError) fun readoutError s =>
      { s with readoutError } ]

/-- The entries of a calibration. -/
def Calibration.yamlFields : List (Yaml.Field (Calibration Float)) :=
  [ Yaml.field "name" Yaml.decodeString (·.name) fun name c => { c with name },
    Yaml.field "duration" Yaml.decodeFloat (·.duration) fun duration c => { c with duration },
    Yaml.field "fidelity" Yaml.decodeFloat (·.fidelity) fun fidelity c => { c with fidelity },
    Yaml.field "num_qubits" Yaml.decodeNat (·.numQubits) fun numQubits c => { c with numQubits } ]

namespace Descriptor

/-- The entries of a descriptor. -/
def yamlFields : List (Yaml.Field (Descriptor Float)) :=
  [ Yaml.field "name" Yaml.decodeString (·.name) fun name d => { d with name },
    Yaml.field "num_qubits" Yaml.decodeNat (·.numQubits) fun numQubits d => { d with numQubits },
    Yaml.field "coupling_map" (Yaml.decodeList [] (Yaml.decodeList 0 Yaml.decodeNat))
      (·.couplingMap)
      fun couplingMap d => { d with couplingMap },
    Yaml.field "native_gates" (Yaml.decodeList "" Yaml.decodeString) (·.nativeGates)
      fun nativeGates d => { d with nativeGates },
    Yaml.field "sites"
      (Yaml.decodeList Site.uncalibrated (Yaml.decodeRecord false Site.yamlFields)) (·.sites)
      fun sites d => { d with sites },
    Yaml.field "operations"
      (Yaml.decodeList Calibration.blank (Yaml.decodeRecord false Calibration.yamlFields))
      (·.operations) fun operations d => { d with operations },
    Yaml.field "zones" Yaml.decodeNat (·.zones) fun zones d => { d with zones } ]

/-- The descriptor of a YAML text.  An empty text gives an empty descriptor. -/
def parseYaml? (text : String) : Option (Descriptor Float) :=
  match Yaml.read? text with
  | none => none
  | some none => some {}
  | some (some v) =>
    match Yaml.decodeRecord false yamlFields {} v with
    | .value d => some d
    | .missing => some {}
    | .failure => none

end Descriptor

end QuantumCompiler
