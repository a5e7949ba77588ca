import QuantumCompiler.Circuit.Json
import QuantumCompiler.Device.Preset
import QuantumCompiler.Pipeline.Compile
import QuantumCompiler.Text.Listing

/-!
# Reports of commands

Lines for the reader and a JSON document with the compiled circuits.  Compilation is a function,
inside of which no time passes, so all durations are zero.
-/

namespace QuantumCompiler.CommandLine

/-! ## Lines -/

/-- A probability with four places. -/
def probability (x : Float) : String := Decimal.fixed 4 x

/-- The line for a success. -/
def successLine (file : String) : String := file ++ ": ok"

/-- The line for a failure. -/
def failureLine (file message : String) : String := file ++ ": failed " ++ message

/-- The counts of a compilation in words. -/
def details (r : Compilation Float) : String :=
  let s := r.report.stats
  let esp := match r.esp with
    | some e => ", esp " ++ probability e.total
    | none => ""
  s!"{r.report.device}, gates {s.gatesBefore} -> {s.gatesAfter}, " ++
    s!"depth {s.depthBefore} -> {s.depthAfter}, " ++
    s!"{s.swaps} swap(s), {s.passes} pass(es), 0us" ++ esp

/-- The line for a compiled file. -/
def compiledLine (file : String) (r : Compilation Float) : String :=
  match r.circuit with
  | .ok _ => successLine file ++ " (" ++ details r ++ ")"
  | .error e => failureLine file e.message

/-- The statistics of a compilation. -/
def statsJson (s : Stats) : Json :=
  .object
    [ ("original_depth", .ofNat s.depthBefore), ("compiled_depth", .ofNat s.depthAfter),
      ("gates_before", .ofNat s.gatesBefore), ("gates_after", .ofNat s.gatesAfter),
      ("num_passes", .ofNat s.passes), ("compile_time_us", .ofNat 0),
      ("throughput_gates_per_sec", .ofNat 0), ("swaps_inserted", .ofNat s.swaps) ]

/-- The lines with the statistics of a compilation. -/
def statsText (s : Stats) : String := "  " ++ (statsJson s).indented "  "

/-- The line with the success probability of each layer. -/
def layersLine (e : Success.Estimate Float) : String :=
  "  layer esp " ++ Text.bracket (e.layers.map probability)

/-- The lines on a compiled file. -/
def compiledLines (stats esp : Bool) (file : String) (r : Compilation Float) : List String :=
  let layers := match r.esp with
    | some e => [layersLine e]
    | none => []
  compiledLine file r ::
    ((if stats then [statsText r.report.stats] else []) ++ if esp then layers else [])

/-! ## Compiled circuits -/

/-- A number that JSON cannot express. -/
structure UnsupportedNumber where
  /-- The number. -/
  value : Float

/-- The wording of a number that JSON cannot express. -/
def UnsupportedNumber.message (e : UnsupportedNumber) : String :=
  "json: unsupported value: " ++ Json.numberStyle.text e.value

/-- The JSON value of a number. -/
def numberJson (x : Float) : Except UnsupportedNumber Json :=
  match Json.ofFloat? x with
  | some v => .ok v
  | none => .error ⟨x⟩

/-- The JSON value of a circuit. -/
def circuitDocument (c : Circuit Float) : Except UnsupportedNumber Json :=
  match c.toJson? with
  | some v => .ok v
  | none => .error ⟨((c.ops.flatMap (·.params)).find? (!Binary64.isFinite ·)).getD 0⟩

/-- The JSON value of an estimate. -/
def estimateDocument (e : Success.Estimate Float) : Except UnsupportedNumber Json := do
  let layers ← e.layers.mapM numberJson
  let cumulative ← e.cumulative.mapM numberJson
  let total ← numberJson e.total
  return .object [("layer_esp", .array layers), ("cumulative_esp", .array cumulative),
    ("total_esp", total)]

/-- The places of all logical qubits. -/
def layoutDocument (l : Layout) : Json :=
  .array (l.physicals.zipIdx.map fun (physical, logical) =>
    .object [("logical", .ofNat logical), ("physical", .ofNat (physical.getD Layout.unassigned))])

/-- The member for a layout.  It is left out if no qubit is placed. -/
def layoutMember (key : String) (l : Option Layout) : List (String × Json) :=
  match l with
  | some l => if l.numLogical == 0 then [] else [(key, layoutDocument l)]
  | none => []

/-- The member for the compiled circuit or the failure. -/
def resultMember (r : Compilation Float) : Except UnsupportedNumber (List (String × Json)) :=
  match r.circuit with
  | .ok c => (circuitDocument c).map fun v => [("circuit", v)]
  | .error e => .ok [("error", .string e.message)]

/-- The member for the estimate.  It is left out if there is none. -/
def estimateMember (r : Compilation Float) : Except UnsupportedNumber (List (String × Json)) :=
  match r.esp with
  | some e => (estimateDocument e).map fun v => [("esp", v)]
  | none => .ok []

/-- The JSON value for a compiled file, which is the given one of its batch. -/
def compiledDocument (number : Nat) (file : String) (r : Compilation Float) :
    Except UnsupportedNumber Json := do
  let result ← resultMember r
  let esp ← estimateMember r
  return .object
    ([("file", Json.string file), ("id", .string (Decimal.natText number)),
      ("device", .string r.report.device), ("final_stage", .string r.report.final.name)] ++
      result ++
      layoutMember "initial_layout" r.initial ++ layoutMember "final_layout" r.final ++
      [("stats", statsJson r.report.stats)] ++ esp)

/-- The document on a batch of compiled files. -/
def batchDocument (batch : List (String × Compilation Float)) :
    Except UnsupportedNumber String := do
  let entries ← batch.zipIdx.mapM fun ((file, r), i) => compiledDocument (i + 1) file r
  return (Json.array entries).indented ""

/-! ## Presets -/

/-- A row of the table of presets. -/
def presetRow (p : Preset) : Except PresetError (List String × String) :=
  match Preset.device p.name 0 with
  | .ok d => .ok ([p.name, toString d.numQubits, d.natives.text], p.description)
  | .error e => .error e

/-- A row of the table with every cell but the last followed by blanks up to two more than the
width of its column. -/
def tableLine (widths : List Nat) (row : List String × String) : String :=
  let cell (width : Nat) (text : String) : String :=
    text ++ String.ofList (List.replicate (width + 2 - text.length) ' ')
  String.join (List.zipWith cell widths row.1) ++ row.2

/-- The table of presets. -/
def presetTable : Except PresetError (List String) := do
  let rows := (["name", "qubits", "natives"], "description") :: (← Preset.all.mapM presetRow)
  let widths :=
    rows.foldl (fun widths row => List.zipWith (fun w text => max w text.length) widths row.1)
      [0, 0, 0]
  return rows.map (tableLine widths)

end QuantumCompiler.CommandLine
