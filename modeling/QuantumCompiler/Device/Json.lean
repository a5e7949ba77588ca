import QuantumCompiler.Device.Basic
import QuantumCompiler.Json.Decode
import QuantumCompiler.Json.Reader

/-!
# Device descriptors as JSON
-/

namespace QuantumCompiler

namespace Site

/-- The members of a site. -/
def jsonFields : List (Json.Field (Site Float)) :=
  [ Json.field "t1" Json.decodeFloat (·.t1) fun t1 s => { s with t1 },
    Json.field "t2" Json.decodeFloat (·.t2) fun t2 s => { s with t2 },
    Json.field "readout_error" Json.decodeFloat (·.readoutError) fun readoutError s =>
      { s with readoutError } ]

/-- The JSON value of a site, if its numbers are finite. -/
def toJson? (s : Site Float) : Option Json := do
  some (.object [("t1", ← Json.ofFloat? s.t1), ("t2", ← Json.ofFloat? s.t2),
    ("readout_error", ← Json.ofFloat? s.readoutError)])

end Site

namespace Calibration

/-- A calibration with nothing filled in. -/
def blank : Calibration Float := ⟨"", 0, 0, 0⟩

/-- The members of a calibration. -/
def jsonFields : List (Json.Field (Calibration Float)) :=
  [ Json.field "name" Json.decodeString (·.name) fun name c => { c with name },
    Json.field "duration" Json.decodeFloat (·.duration) fun duration c => { c with duration },
    Json.field "fidelity" Json.decodeFloat (·.fidelity) fun fidelity c => { c with fidelity },
    Json.field "num_qubits" Json.decodeNat (·.numQubits) fun numQubits c => { c with numQubits } ]

/-- The JSON value of a calibration, if its numbers are finite. -/
def toJson? (c : Calibration Float) : Option Json := do
  some (.object [("name", .string c.name), ("duration", ← Json.ofFloat? c.duration),
    ("fidelity", ← Json.ofFloat? c.fidelity), ("num_qubits", .ofNat c.numQubits)])

end Calibration

namespace Descriptor

/-- A descriptor that is being read. -/
structure Draft where
  name : String := ""
  numQubits : Nat := 0
  couplingMap : Json.Slots (Json.Slots Nat) := {}
  nativeGates : Json.Slots String := {}
  sites : Json.Slots (Site Float) := {}
  operations : Json.Slots (Calibration Float) := {}
  zones : Nat := 0

namespace Draft

/-- The descriptor as far as it was read. -/
def descriptor (d : Draft) : Descriptor Float where
  name := d.name
  numQubits := d.numQubits
  couplingMap := d.couplingMap.items.map (·.items)
  nativeGates := d.nativeGates.items
  sites := d.sites.items
  operations := d.operations.items
  zones := d.zones

/-- The members of a descriptor. -/
def jsonFields : List (Json.Field Draft) :=
  [ Json.field "name" Json.decodeString (·.name) fun name d => { d with name },
    Json.field "num_qubits" Json.decodeNat (·.numQubits) fun numQubits d => { d with numQubits },
    Json.field "coupling_map" (Json.decodeList {} (Json.decodeList 0 Json.decodeNat))
      (·.couplingMap) fun couplingMap d => { d with couplingMap },
    Json.field "native_gates" (Json.decodeList "" Json.decodeString) (·.nativeGates)
      fun nativeGates d => { d with nativeGates },
    Json.field "sites" (Json.decodeList Site.uncalibrated (Json.decodeRecord Site.jsonFields))
      (·.sites) fun sites d => { d with sites },
    Json.field "operations"
      (Json.decodeList Calibration.blank (Json.decodeRecord Calibration.jsonFields))
      (·.operations) fun operations d => { d with operations },
    Json.field "zones" Json.decodeNat (·.zones) fun zones d => { d with zones } ]

end Draft

/-- The descriptor of a JSON value. -/
def ofJson? (v : Json) : Option (Descriptor Float) :=
  (Json.decodeRecord Draft.jsonFields {} v).map (·.descriptor)

/-- The descriptor of a JSON text. -/
def parseJson? (text : String) : Option (Descriptor Float) := (Json.read? text).bind ofJson?

/-- The JSON value of a descriptor, if its numbers are finite.  The member `zones` is left out
if it is zero. -/
def toJson? (d : Descriptor Float) : Option Json := do
  let sites ← d.sites.mapM Site.toJson?
  let operations ← d.operations.mapM Calibration.toJson?
  some (.object
    ([ ("name", .string d.name), ("num_qubits", .ofNat d.numQubits),
       ("coupling_map", .array (d.couplingMap.map Json.ofNats)),
       ("native_gates", .array (d.nativeGates.map Json.string)),
       ("sites", .array sites), ("operations", .array operations) ] ++
      if d.zones == 0 then [] else [("zones", .ofNat d.zones)]))

end Descriptor

end QuantumCompiler
