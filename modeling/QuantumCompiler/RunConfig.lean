import QuantumCompiler.Device.File
import QuantumCompiler.Device.Preset
import QuantumCompiler.Pipeline.Compile

/-!
# Run configurations

What a run compiles for and how.  Values come from a YAML text, then from the environment; what
is not given keeps its usual value.
-/

namespace QuantumCompiler

/-- The configuration of a run.  A device file goes before a named preset. -/
structure RunConfig where
  /-- Name of a preset. -/
  target : String := "ibm"
  /-- File with a device descriptor, or nothing. -/
  deviceFile : String := ""
  /-- Size of the preset; zero stands for its usual size. -/
  qubits : Nat := 0
  /-- Number of zones; zero keeps those of the device. -/
  zones : Nat := 0
  /-- Level of optimisation. -/
  optimisationLevel : Nat := Peephole.Config.defaultLevel
  /-- Number of circuits compiled at the same time; zero stands for one a processor. -/
  workers : Nat := 0
  /-- Whether success probabilities are estimated. -/
  estimateEsp : Bool := true
  /-- Values for missing calibration data. -/
  esp : Success.Config Float := Success.Config.default
  /-- Least level of log messages. -/
  logLevel : String := "info"

namespace RunConfig

/-! ## Checks -/

/-- The names of log levels. -/
def logLevels : List String :=
  ["panic", "fatal", "error", "warn", "warning", "info", "debug", "trace"]

/-- The rules that a configuration breaks. -/
def violations (c : RunConfig) : List Violation :=
  Violation.check "Config" "Target"
    [("required_without", c.target != "" || c.deviceFile != "")] ++
  Violation.check "Config" "OptimisationLevel" [("lte", c.optimisationLevel ≤ 3)] ++
  c.esp.violations "Config.ESP" ++
  Violation.check "Config" "LogLevel" [("oneof", logLevels.contains c.logLevel)]

/-- The wording of broken rules, if there are any. -/
def invalid? (c : RunConfig) : Option String :=
  match c.violations with
  | [] => none
  | vs => some ("invalid configuration: " ++ Violation.messages vs)

/-! ## YAML -/

/-- The entries for missing calibration data. -/
def espFields : List (Yaml.Field (Success.Config Float)) :=
  [ Yaml.field "single_qubit_fidelity" Yaml.decodeFloat (·.singleQubitFidelity)
      fun singleQubitFidelity c => { c with singleQubitFidelity },
    Yaml.field "multi_qubit_fidelity" Yaml.decodeFloat (·.multiQubitFidelity)
      fun multiQubitFidelity c => { c with multiQubitFidelity },
    Yaml.field "single_qubit_duration" Yaml.decodeFloat (·.singleQubitDuration)
      fun singleQubitDuration c => { c with singleQubitDuration },
    Yaml.field "multi_qubit_duration" Yaml.decodeFloat (·.multiQubitDuration)
      fun multiQubitDuration c => { c with multiQubitDuration },
    Yaml.field "measure_duration" Yaml.decodeFloat (·.measureDuration)
      fun measureDuration c => { c with measureDuration },
    Yaml.field "t1" Yaml.decodeFloat (·.t1) fun t1 c => { c with t1 },
    Yaml.field "t2" Yaml.decodeFloat (·.t2) fun t2 c => { c with t2 },
    Yaml.field "readout_error" Yaml.decodeFloat (·.readoutError) fun readoutError c =>
      { c with readoutError } ]

/-- The entries of a configuration. -/
def yamlFields : List (Yaml.Field RunConfig) :=
  [ Yaml.field "target" Yaml.decodeString (·.target) fun target c => { c with target },
    Yaml.field "device_file" Yaml.decodeString (·.deviceFile) fun deviceFile c =>
      { c with deviceFile },
    Yaml.field "qubits" Yaml.decodeNat (·.qubits) fun qubits c => { c with qubits },
    Yaml.field "zones" Yaml.decodeNat (·.zones) fun zones c => { c with zones },
    Yaml.field "optimisation_level" Yaml.decodeNat (·.optimisationLevel)
      fun optimisationLevel c => { c with optimisationLevel },
    Yaml.field "workers" Yaml.decodeNat (·.workers) fun workers c => { c with workers },
    Yaml.field "estimate_esp" Yaml.decodeBool (·.estimateEsp) fun estimateEsp c =>
      { c with estimateEsp },
    Yaml.field "esp" (Yaml.decodeRecord true espFields) (·.esp) fun esp c => { c with esp },
    Yaml.field "log_level" Yaml.decodeString (·.logLevel) fun logLevel c => { c with logLevel } ]

/-- Why a text or file gives no configuration. -/
inductive ReadError where
  /-- There is no such file. -/
  | missing (name : String)
  /-- The text is malformed, or has a key that is unknown or repeated. -/
  | yaml
  /-- Some values break their rules. -/
  | invalid (message : String)
  deriving Repr, DecidableEq

/-- The wording of a refused configuration. -/
def ReadError.message : ReadError → String
  | missing name => Files.missing name
  | yaml => "invalid configuration: malformed YAML"
  | invalid message => message

/-- The configuration of a YAML text, before its values are checked. -/
def decode? (text : String) : Option RunConfig :=
  match Yaml.read? text with
  | none => none
  | some none => some {}
  | some (some v) =>
    match Yaml.decodeRecord true yamlFields {} v with
    | .value c => some c
    | .missing => some {}
    | .failure => none

/-- The configuration of a YAML text. -/
def parse (text : String) : Except ReadError RunConfig :=
  match decode? text with
  | none => .error .yaml
  | some c =>
    match c.invalid? with
    | some message => .error (.invalid message)
    | none => .ok c

/-- The configuration in a file, or the wording of the failure. -/
def load (files : Files) (name : String) : Except String RunConfig :=
  match files.read? name with
  | none => .error (Files.missing name)
  | some text =>
    match parse text with
    | .ok c => .ok c
    | .error e => .error (name ++ ": " ++ e.message)

/-! ## Environment -/

/-- A number of decimal digits below `2 ^ 32`. -/
def parseCount? (text : String) : Option Nat := (Json.literalNat? text).filter (· < Nat.pow 2 32)

/-- A truth value by one of its names. -/
def parseFlag? (text : String) : Option Bool :=
  if ["1", "t", "T", "TRUE", "true", "True"].contains text then some true
  else if ["0", "f", "F", "FALSE", "false", "False"].contains text then some false
  else none

/-- The value of a variable that is set to something. -/
def setting? (env : List (String × String)) (name : String) : Option String :=
  ((env.find? (·.1 == name)).map (·.2)).filter (· != "")

/-- The variables of the environment. -/
def settings : List String :=
  ["TARGET", "DEVICE_FILE", "QUBITS", "ZONES", "OPT", "WORKERS", "ESTIMATE_ESP", "LOG_LEVEL"]

/-- The configuration with the values that the environment gives.  Values that cannot be read
are ignored. -/
def applyEnv (env : List (String × String)) (c : RunConfig) : RunConfig :=
  let text (name : String) (old : String) : String := (setting? env name).getD old
  let count (name : String) (old : Nat) : Nat := ((setting? env name).bind parseCount?).getD old
  { c with
    target := text "TARGET" c.target
    deviceFile := text "DEVICE_FILE" c.deviceFile
    qubits := count "QUBITS" c.qubits
    zones := count "ZONES" c.zones
    optimisationLevel := count "OPT" c.optimisationLevel
    workers := count "WORKERS" c.workers
    estimateEsp := ((setting? env "ESTIMATE_ESP").bind parseFlag?).getD c.estimateEsp
    logLevel := text "LOG_LEVEL" c.logLevel }

/-! ## Use -/

/-- A letter without its case.  The capital letter i with a dot counts as a Latin letter. -/
def lowerChar (c : Char) : Char := if c.toNat == 0x130 then 'i' else c.toLower

/-- The log level of a configuration by its usual name; the usual level if there is no such
level. -/
def level (c : RunConfig) : String :=
  let name := String.ofList (c.logLevel.toList.map lowerChar)
  if name == "warn" then "warning" else if logLevels.contains name then name else "info"

/-- Why a configuration has no device. -/
inductive TargetError where
  /-- The device file is refused. -/
  | file (error : DeviceFileError)
  /-- The preset is refused. -/
  | preset (error : PresetError)
  deriving Repr, DecidableEq

/-- The wording of a missing device. -/
def TargetError.message : TargetError → String
  | file e => e.message
  | preset e => e.message

/-- The device of a file or preset. -/
def baseDevice (files : Files) (c : RunConfig) : Except TargetError (Device Float) :=
  if c.deviceFile != "" then
    match Device.load files c.deviceFile with
    | .ok d => .ok d
    | .error e => .error (.file e)
  else
    match Preset.device c.target c.qubits with
    | .ok d => .ok d
    | .error e => .error (.preset e)

/-- The device to compile for. -/
def device (files : Files) (c : RunConfig) : Except TargetError (Device Float) :=
  match baseDevice files c with
  | .error e => .error e
  | .ok d => .ok (if c.zones == 0 then d else d.withZones c.zones)

/-- The pipeline for a device, unless the level of optimisation does not exist. -/
def pipeline? (c : RunConfig) (d : Device Float) : Option (Pipeline Float) :=
  (Peephole.Config.level? c.optimisationLevel).map fun optimisation =>
    { device := d, optimisation, estimation := if c.estimateEsp then some c.esp else none }

end RunConfig

end QuantumCompiler
