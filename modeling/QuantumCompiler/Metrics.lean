import QuantumCompiler.Circuit.Operation
import QuantumCompiler.Numeric.Binary64
import QuantumCompiler.Pipeline.Report

/-!
# Metrics

What was measured over many compilations, in five families: stage durations, outcomes, swaps,
estimated success probabilities and gate counts.  A family is kept as the list of its samples;
counts, sums and buckets are read off when it is written.  `Metrics.text` writes all families in
the usual text format for metrics: families by name, series by their label values, histograms
with cumulative buckets.
-/

namespace QuantumCompiler

namespace Metrics

/-- One measured value with the values of its labels. -/
structure Sample where
  /-- Values of the labels in order. -/
  labels : List String
  /-- The measured value. -/
  value : Float

/-- How the samples of a family are summed up. -/
inductive Shape where
  /-- The number of samples. -/
  | counter
  /-- Number, sum, and numbers below given bounds. -/
  | histogram (bounds : List Float)

/-- A family of metrics. -/
structure Family where
  /-- Name of the family. -/
  name : String
  /-- One line on the family. -/
  help : String
  /-- Names of the labels. -/
  labels : List String
  /-- How samples are summed up. -/
  shape : Shape

/-- Bounds that grow by a factor. -/
def exponentialBounds (factor : Float) : Nat → Float → List Float
  | 0, _ => []
  | n + 1, start => start :: exponentialBounds factor n (start * factor)

/-- Bounds that grow by a width. -/
def linearBounds (width : Float) : Nat → Float → List Float
  | 0, _ => []
  | n + 1, start => start :: linearBounds width n (start + width)

/-- Compilations by device and outcome. -/
def compilationsFamily : Family :=
  ⟨"transpile_compilations_total", "Compilations by device and outcome", ["device", "outcome"],
    .counter⟩

/-- Gate counts of compiled circuits. -/
def gatesFamily : Family :=
  ⟨"transpile_compiled_gates", "Gate count of compiled circuits", ["device"],
    .histogram (exponentialBounds 2 16 1)⟩

/-- Estimated success probabilities of compiled circuits. -/
def espFamily : Family :=
  ⟨"transpile_estimated_success_probability",
    "Estimated success probability of compiled circuits", ["device"],
    .histogram (linearBounds 0.1 10 0.1)⟩

/-- Durations of stages. -/
def durationFamily : Family :=
  ⟨"transpile_stage_duration_seconds", "Time taken by each compilation stage",
    ["device", "stage"], .histogram (exponentialBounds 4 12 1e-6)⟩

/-- Swaps put into circuits. -/
def swapsFamily : Family :=
  ⟨"transpile_swaps_inserted", "Swaps inserted during routing", ["device"],
    .histogram [0, 1, 2, 4, 8, 16, 32, 64, 128]⟩

end Metrics

/-- All samples so far. -/
structure Metrics where
  /-- Outcomes of compilations. -/
  compilations : List Metrics.Sample := []
  /-- Gate counts. -/
  gates : List Metrics.Sample := []
  /-- Estimated success probabilities. -/
  esp : List Metrics.Sample := []
  /-- Durations of stages in seconds. -/
  durations : List Metrics.Sample := []
  /-- Numbers of swaps. -/
  swaps : List Metrics.Sample := []

namespace Metrics

/-! ## Recording -/

/-- The floating point number of an integer. -/
def floatOfInt (i : Int) : Float := if 0 ≤ i then Float.ofNat i.toNat else -Float.ofNat i.natAbs

/-- Nanoseconds as seconds: whole seconds and the fraction are added. -/
def seconds (nanoseconds : Int) : Float :=
  floatOfInt (nanoseconds.tdiv 1000000000) + floatOfInt (nanoseconds.tmod 1000000000) / 1e9

/-- Records how long a stage took, in nanoseconds. -/
def stageCompleted (m : Metrics) (device : String) (stage : Stage) (elapsed : Int) : Metrics :=
  { m with durations := m.durations ++ [⟨[device, stage.name], seconds elapsed⟩] }

/-- Records the outcome of a compilation.  A report that neither succeeded nor says which stage
failed is refused. -/
def finished (m : Metrics) (report : Report Float) : Option Metrics :=
  if report.succeeded then
    let esp : List Sample := if 0.0 < report.esp then [⟨[report.device], report.esp⟩] else []
    some
      { m with
        compilations := m.compilations ++ [⟨[report.device, "succeeded"], 1⟩]
        swaps := m.swaps ++ [⟨[report.device], Float.ofNat report.stats.swaps⟩]
        gates := m.gates ++ [⟨[report.device], Float.ofNat report.stats.gatesAfter⟩]
        esp := m.esp ++ esp }
  else
    report.failedAt.map fun stage =>
      { m with compilations := m.compilations ++ [⟨[report.device, "failed_" ++ stage.name], 1⟩] }

/-- Records an event; stages are taken to last no time. -/
def observe (m : Metrics) : Event Float → Metrics
  | .stageCompleted device snapshot => m.stageCompleted device snapshot.stage 0
  | .finished report => (m.finished report).getD m

/-- Records everything observed of a compilation. -/
def observeAll (m : Metrics) (report : Report Float) : Metrics := report.events.foldl observe m

/-! ## Writing -/

/-- A character of a label value: backslashes, quotes and line ends are escaped. -/
def escapeLabelChar (c : Char) : String :=
  if c == '\\' then "\\\\" else if c == '"' then "\\\"" else if c == '\n' then "\\n"
  else c.toString

/-- A label with its value. -/
def labelText (name value : String) : String :=
  name ++ "=\"" ++ String.join (value.toList.map escapeLabelChar) ++ "\""

/-- Labels with their values in braces. -/
def labelsText (labels : List (String × String)) : String :=
  if labels.isEmpty then ""
  else "\x7b" ++ ",".intercalate (labels.map fun (name, value) => labelText name value) ++ "\x7d"

/-- One line of a series. -/
def line (name : String) (labels : List (String × String)) (value : Float) : String :=
  name ++ labelsText labels ++ " " ++ Operation.numberStyle.text value

/-- The order of label values. -/
def labelsLe : List String → List String → Bool
  | [], _ => true
  | _ :: _, [] => false
  | a :: as, b :: bs => a < b || (a == b && labelsLe as bs)

/-- The lines of the series with given label values. -/
def seriesLines (family : Family) (values : List String) (samples : List Float) : List String :=
  let labels := family.labels.zip values
  let count := Float.ofNat samples.length
  match family.shape with
  | .counter => [line family.name labels count]
  | .histogram bounds =>
    let bucket (bound : Float) : String :=
      line (family.name ++ "_bucket") (labels ++ [("le", Operation.numberStyle.text bound)])
        (Float.ofNat (samples.countP fun v => v ≤ bound))
    bounds.map bucket ++
      [ line (family.name ++ "_bucket") (labels ++ [("le", "+Inf")]) count,
        line (family.name ++ "_sum") labels (samples.foldl (· + ·) 0),
        line (family.name ++ "_count") labels count ]

/-- Name of a shape. -/
def Shape.name : Shape → String
  | counter => "counter"
  | histogram _ => "histogram"

/-- The lines of a family, if it has samples. -/
def familyLines (family : Family) (samples : List Sample) : List String :=
  if samples.isEmpty then []
  else
    let series := ((samples.map (·.labels)).eraseDups).mergeSort labelsLe
    [ "# HELP " ++ family.name ++ " " ++ family.help,
      "# TYPE " ++ family.name ++ " " ++ family.shape.name ] ++
      series.flatMap fun values =>
        seriesLines family values ((samples.filter (·.labels == values)).map (·.value))

/-- All lines, families in order of their names. -/
def lines (m : Metrics) : List String :=
  familyLines compilationsFamily m.compilations ++ familyLines gatesFamily m.gates ++
  familyLines espFamily m.esp ++
    familyLines durationFamily m.durations ++ familyLines swapsFamily m.swaps

/-- All metrics as a text. -/
def text (m : Metrics) : String := String.join (m.lines.map (· ++ "\n"))

end Metrics

end QuantumCompiler
