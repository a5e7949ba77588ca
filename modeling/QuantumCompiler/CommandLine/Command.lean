import QuantumCompiler.CommandLine.Flag

/-!
# Commands

The first word of a command line that is not a flag or the value of one names the command.
-/

namespace QuantumCompiler.CommandLine

/-- The name of the program. -/
def programName : String := "transpile"

/-- A command. -/
inductive Command where
  /-- No command, only flags. -/
  | root
  /-- Compiles circuits. -/
  | compile
  /-- Checks compiled circuits. -/
  | verify
  /-- Lists the presets. -/
  | devices
  /-- Tells the usage of a command. -/
  | help
  deriving Repr, DecidableEq

namespace Command

/-- The commands that have a name, in alphabetical order. -/
def all : List Command := [compile, devices, help, verify]

/-- The name of a command. -/
def name : Command → String
  | root => ""
  | compile => "compile"
  | verify => "verify"
  | devices => "devices"
  | help => "help"

/-- The command of a name. -/
def ofName? (name : String) : Option Command := all.find? (·.name == name)

/-- How a command is called. -/
def usageLine : Command → String
  | root => "[flags]"
  | compile => "compile [flags] circuit_file(s)"
  | verify => "verify [flags] circuit_file(s)"
  | devices => "devices [flags]"
  | help => "help [command] [flags]"

/-- One line on a command. -/
def summary : Command → String
  | root => "A compiler for quantum circuits."
  | compile => "compile circuits for a target device."
  | verify => "verify compiled circuits can be executed on a target device."
  | devices => "list the available device presets."
  | help => "Help about any command"

/-! ## Flags -/

/-- The flags of every command. -/
def sharedFlags : List Flag :=
  [ { name := "config", usage := "read run configuration from a YAML file"
      setter := .text fun config o => { o with config } },
    { name := "opt", short := some 'O', usage := "set optimisation level"
      setter := .count fun level o => { o with level := some level } },
    { name := "verbose", short := some 'v', usage := "increase logging verbosity"
      setter := .switch fun verbose o => { o with verbose } } ]

/-- The flags that choose a device. -/
def deviceFlags : List Flag :=
  [ { name := "device", short := some 'd', usage := "target device descriptor file (JSON or YAML)"
      setter := .text fun device o => { o with device := some device } },
    { name := "qubits", usage := "number of qubits for the target preset (0 for its default size)"
      setter := .count fun qubits o => { o with qubits := some qubits } },
    { name := "target", short := some 't', usage := "target device preset (see \"devices\")"
      setter := .text fun target o => { o with target := some target } },
    { name := "zones", usage := "number of interaction zones of the target device (0 for its own)"
      setter := .count fun zones o => { o with zones := some zones } } ]

/-- The flags of what is compiled and reported. -/
def reportFlags : List Flag :=
  [ { name := "esp", usage := "report success probability of each layer"
      setter := .switch fun esp o => { o with esp } },
    { name := "metrics", usage := "report metrics for the batch (Prometheus text format)"
      setter := .switch fun metrics o => { o with metrics } },
    { name := "output", short := some 'o', usage := "write compiled circuits (as JSON) to a file"
      setter := .text fun output o => { o with output } },
    { name := "stats", usage := "report compilation statistics for each circuit"
      setter := .switch fun stats o => { o with stats } },
    { name := "workers",
      usage := "maximum number of circuits compiled concurrently (0 for one per CPU)"
      setter := .count fun workers o => { o with workers := some workers } } ]

/-- The flags of one command only, apart from the one for its usage. -/
def ownFlags : Command → List Flag
  | root =>
    [ { name := "version", usage := "Report version of this executable"
        setter := .switch fun version o => { o with version } } ]
  | compile => deviceFlags ++ reportFlags
  | verify => deviceFlags
  | devices | help => []

/-- The flag for the usage. -/
def usageFlag : Flag :=
  { name := "help", short := some 'h', usage := "tell the usage",
    setter := .switch fun help o => { o with help } }

/-- All flags of a command. -/
def flags (c : Command) : List Flag := usageFlag :: (c.ownFlags ++ sharedFlags)

/-! ## Arguments -/

/-- What is wrong with the arguments of a command. -/
def argumentError? (c : Command) (arguments : List String) : Option UsageError :=
  match c, arguments with
  | compile, [] | verify, [] => some .missingArgument
  | devices, arg :: _ => some (.surplusArgument arg)
  | _, _ => none

/-! ## Choice of the command -/

/-- The flags known before the command is. -/
def leadingFlags : List Flag := ownFlags root ++ sharedFlags

/-- Whether the part after this one is the value of a flag.  An unknown flag counts as one with
a value. -/
def takesNext (arg : String) : Bool :=
  match arg.toList with
  | '-' :: '-' :: name =>
    !name.contains '=' && !((Flag.named? leadingFlags (String.ofList name)).any Flag.isSwitch)
  | ['-', letter] =>
    letter.utf8Size == 1 && letter != '=' &&
      !((Flag.lettered? leadingFlags letter).any Flag.isSwitch)
  | _ => false

/-- Whether a part is neither a flag nor empty. -/
def isWord (arg : String) : Bool := arg != "" && arg.toList.head? != some '-'

/-- The words of a command line before `--` that are not values of flags.  A flag with a value
before the last part ends the search. -/
def words : List String → List String
  | [] => []
  | arg :: rest =>
    if arg == "--" then []
    else if takesNext arg then
      match rest with
      | _ :: next :: more => words (next :: more)
      | _ => []
    else if isWord arg then arg :: words rest
    else words rest

/-- The command line without the first place where a word stands for itself. -/
def removeWord (word : String) : List String → List String
  | [] => []
  | arg :: rest =>
    if arg == "--" then arg :: rest
    else if takesNext arg then
      match rest with
      | [] => [arg]
      | value :: more => arg :: value :: removeWord word more
    else if arg == word then rest
    else arg :: removeWord word rest

/-- The command of a command line and what else stands there. -/
def choose (args : List String) : Except UsageError (Command × List String) :=
  match words args with
  | [] => .ok (root, args)
  | word :: _ =>
    match ofName? word with
    | some c => .ok (c, removeWord word args)
    | none => .error (.unknownCommand word)

/-! ## Usage -/

/-- The kind of value of a flag. -/
def valueName (f : Flag) : String :=
  match f.setter with
  | .switch _ => ""
  | .count _ => " uint"
  | .text _ => " string"

/-- The ways to give a flag. -/
def flagTitle (f : Flag) : String :=
  let letter := match f.short with
    | some letter => "  -" ++ letter.toString ++ ", "
    | none => "      "
  letter ++ "--" ++ f.name ++ valueName f

/-- A text followed by blanks up to a width. -/
def padded (width : Nat) (text : String) : String :=
  text ++ String.ofList (List.replicate (width - text.length) ' ')

/-- Two columns, a line each. -/
def columns (rows : List (String × String)) : List String :=
  let width := rows.foldl (fun w row => max w row.1.length) 0
  rows.map fun (left, right) => padded (width + 3) left ++ right

/-- The usage of a command. -/
def usage (c : Command) : String :=
  let commands := match c with
    | root =>
      ["", "Available Commands:"] ++ columns (all.map fun c => ("  " ++ c.name, c.summary))
    | _ => []
  let rows := (c.ownFlags ++ [usageFlag] ++ sharedFlags).map fun f => (flagTitle f, f.usage)
  let lines := [c.summary, "", "Usage:", "  " ++ programName ++ " " ++ c.usageLine] ++ commands ++
    ["", "Flags:"] ++ columns rows
  String.join (lines.map (· ++ "\n"))

end Command

end QuantumCompiler.CommandLine
