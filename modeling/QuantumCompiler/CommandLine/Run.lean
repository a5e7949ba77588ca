import QuantumCompiler.CommandLine.Command
import QuantumCompiler.CommandLine.Report
import QuantumCompiler.Metrics

/-!
# Running commands

A run maps the command line, the environment and the files to what is printed, what is written
and the exit code.  The code is 1 for a wrong command line and if some circuit failed, and 2 if
nothing could be done as asked.
-/

namespace QuantumCompiler.CommandLine

/-- What a run is given. -/
structure Invocation where
  /-- The command line after the name of the program. -/
  args : List String
  /-- The variables of the environment that belong to the program. -/
  env : List (String × String) := []
  /-- The files. -/
  files : Files := []
  /-- The directories for written files, besides the current one. -/
  directories : List String := []

/-- What a run does. -/
structure Outcome where
  /-- The exit code. -/
  exit : Nat := 0
  /-- The standard output. -/
  output : String := ""
  /-- The standard error. -/
  errors : String := ""
  /-- The files that are written. -/
  written : Files := []
  deriving Repr, DecidableEq

/-- A text of whole lines. -/
def unlines (lines : List String) : String := String.join (lines.map (· ++ "\n"))

namespace Outcome

/-- A run that cannot be done as asked, after some lines. -/
def refused (lines : List String) (message : String) : Outcome :=
  { exit := 2, output := unlines (lines ++ [message]) }

/-- A run with a wrong command line. -/
def misused (e : UsageError) : Outcome :=
  { exit := 1, errors := unlines ["Error: " ++ e.message] }

/-- The exit code after so many failures. -/
def codeOf (failures : Nat) : Nat := if failures == 0 then 0 else 1

end Outcome

/-! ## Configuration -/

/-- The configuration with what the flags ask for.  A preset takes the place of a device file. -/
def applyOptions (o : Options) (c : RunConfig) : RunConfig :=
  { c with
    optimisationLevel := o.level.getD c.optimisationLevel
    target := o.target.getD c.target
    deviceFile := o.device.getD (if o.target.isSome then "" else c.deviceFile)
    qubits := o.qubits.getD c.qubits
    zones := o.zones.getD c.zones
    workers := o.workers.getD c.workers }

/-- The configuration of a run: that of the file or the usual one, then the environment, then
the flags. -/
def configure (i : Invocation) (o : Options) : Except String RunConfig :=
  match (if o.config == "" then .ok {} else RunConfig.load i.files o.config) with
  | .error message => .error message
  | .ok base =>
    let c := applyOptions o (base.applyEnv i.env)
    match c.invalid? with
    | some message => .error message
    | none => .ok c

/-- The circuit in a file. -/
def readCircuit (files : Files) (name : String) : Except String (Circuit Float) :=
  match files.read? name with
  | none => .error (Files.missing name)
  | some text =>
    match Circuit.parse text with
    | .ok c => .ok c
    | .error e => .error (name ++ ": " ++ e.message)

/-! ## Commands -/

/-- The metrics of a batch. -/
def batchMetrics (batch : List (String × Compilation Float)) : Metrics :=
  batch.foldl (fun m (_, r) => m.observeAll r.report) {}

/-- Compiles files with a pipeline and reports on them. -/
def compileWith (directories : List String) (o : Options) (p : Pipeline Float)
    (circuits : List (String × Circuit Float)) : Outcome :=
  let batch := circuits.map fun (file, c) => (file, p.compile c)
  let lines := batch.flatMap fun (file, r) => compiledLines o.stats o.esp file r
  let failures := batch.countP fun (_, r) => !r.report.succeeded
  let done : Outcome :=
    { exit := Outcome.codeOf failures
      output := unlines lines ++ if o.metrics then (batchMetrics batch).text else "" }
  if o.output == "" then done
  else
    match batchDocument batch with
    | .error e => .refused lines e.message
    | .ok document =>
      if Files.canWrite directories o.output then
        { done with written := [(Files.plainName o.output, document)] }
      else .refused lines (Files.missing o.output)

/-- Compiles circuits. -/
def runCompile (i : Invocation) (o : Options) (c : RunConfig) (names : List String) : Outcome :=
  match c.device i.files with
  | .error e => .refused [] e.message
  | .ok d =>
    match names.mapM fun name => (readCircuit i.files name).map (name, ·) with
    | .error message => .refused [] message
    | .ok circuits =>
      match c.pipeline? d with
      | none => .refused [] (invalidLevel c.optimisationLevel)
      | some p => compileWith i.directories o p circuits

/-- Checks circuits one after the other, after some lines and failures. -/
def verifyAll (files : Files) (d : Device Float) (lines : List String) (failures : Nat) :
    List String → Outcome
  | [] => { exit := Outcome.codeOf failures, output := unlines lines }
  | name :: names =>
    match readCircuit files name with
    | .error message => .refused lines message
    | .ok c =>
      match Executable.violation? c d with
      | none => verifyAll files d (lines ++ [successLine name]) failures names
      | some e => verifyAll files d (lines ++ [failureLine name e.message]) (failures + 1) names

/-- Checks that circuits can be executed. -/
def runVerify (files : Files) (c : RunConfig) (names : List String) : Outcome :=
  match c.device files with
  | .error e => .refused [] e.message
  | .ok d => verifyAll files d [] 0 names

/-- Lists the presets. -/
def runDevices : Outcome :=
  match presetTable with
  | .error e => .refused [] e.message
  | .ok lines => { output := unlines lines }

/-- Tells the usage of a command. -/
def runHelp (topic : List String) : Outcome :=
  match Command.choose topic with
  | .ok (c, _) => { output := c.usage }
  | .error _ =>
    { errors := unlines ["Unknown help topic " ++ " ".intercalate topic] ++ Command.usage .root }

/-- Runs a command with its options and arguments. -/
def runCommand (i : Invocation) (o : Options) (arguments : List String) : Command → Outcome
  | .root =>
    { output :=
        if o.version then programName ++ " (unknown version)\n" else Command.usage .root }
  | .help => runHelp arguments
  | command =>
    match configure i o with
    | .error message => .refused [] message
    | .ok c =>
      match command with
      | .compile => runCompile i o c arguments
      | .verify => runVerify i.files c arguments
      | _ => runDevices

/-- The command, options and arguments of a command line. -/
def parse (args : List String) : Except UsageError (Command × Options × List String) :=
  match Command.choose args with
  | .error e => .error e
  | .ok (command, rest) =>
    match parseFlags command.flags rest with
    | .error e => .error e
    | .ok (o, arguments) => .ok (command, o, arguments)

/-- Runs a command line. -/
def run (i : Invocation) : Outcome :=
  match parse i.args with
  | .error e => .misused e
  | .ok (command, o, arguments) =>
    if o.help then { output := command.usage }
    else
      match command.argumentError? arguments with
      | some e => .misused e
      | none => runCommand i o arguments command

/-! ## Needs -/

/-- The names of files that a run reads, as far as the files at hand tell. -/
def Invocation.inputs (i : Invocation) : List String :=
  match parse i.args with
  | .error _ => []
  | .ok (_, o, arguments) =>
    let device := match configure i o with
      | .ok c => [c.deviceFile]
      | .error _ => []
    (o.config :: device ++ arguments).filter (· != "")

/-- The directory that a run writes to. -/
def Invocation.outputDirectory (i : Invocation) : String :=
  match parse i.args with
  | .error _ => ""
  | .ok (_, o, _) => Files.directory o.output

end QuantumCompiler.CommandLine
