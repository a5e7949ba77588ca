import QuantumCompiler.Device.Yaml
import QuantumCompiler.Files

/-!
# Devices from files

The extension of a file tells its format.
-/

namespace QuantumCompiler

/-- Why a file gives no device. -/
inductive DeviceFileError where
  /-- There is no such file. -/
  | missing (name : String)
  /-- The file is not a JSON descriptor. -/
  | json
  /-- The file is not a YAML descriptor. -/
  | yaml
  /-- The extension is none of those known. -/
  | format (extension : String)
  /-- The descriptor is refused. -/
  | device (error : DeviceError)
  deriving Repr, DecidableEq

/-- The wording of a refused file. -/
def DeviceFileError.message : DeviceFileError → String
  | missing name => Files.missing name
  | json => "malformed JSON descriptor"
  | yaml => "malformed YAML descriptor"
  | format extension => "unknown device file format: " ++ extension
  | device e => e.message

namespace Device

/-- The descriptor in a file. -/
def readDescriptor (files : Files) (name : String) : Except DeviceFileError (Descriptor Float) :=
  match files.read? name with
  | none => .error (.missing name)
  | some text =>
    match Files.extension name with
    | ".json" =>
      match Descriptor.parseJson? text with
      | some d => .ok d
      | none => .error .json
    | ".yaml" | ".yml" =>
      match Descriptor.parseYaml? text with
      | some d => .ok d
      | none => .error .yaml
    | extension => .error (.format extension)

/-- The device described in a file. -/
def load (files : Files) (name : String) : Except DeviceFileError (Device Float) :=
  match readDescriptor files name with
  | .error e => .error e
  | .ok d =>
    match ofDescriptor d with
    | .ok device => .ok device
    | .error e => .error (.device e)

end Device

end QuantumCompiler
