import QuantumCompiler.RunConfig

/-!
# Flags

A flag is given by its name, as in `--opt 2` and `--opt=2`, or by a letter, as in `-O 2`, `-O2`
and `-O=2`.  Switches take a value only after an equals sign, and their letters can stand in one
group.  Flags and arguments come in any order; after `--` there are only arguments.
-/

namespace QuantumCompiler.CommandLine

/-- What the flags of a command line ask for. -/
structure Options where
  /-- Whether the usage is asked for. -/
  help : Bool := false
  /-- Whether the version is asked for. -/
  version : Bool := false
  /-- Whether more is logged. -/
  verbose : Bool := false
  /-- Level of optimisation. -/
  level : Option Nat := none
  /-- File with a run configuration, or nothing. -/
  config : String := ""
  /-- Name of a preset. -/
  target : Option String := none
  /-- File with a device descriptor. -/
  device : Option String := none
  /-- Size of the preset. -/
  qubits : Option Nat := none
  /-- Number of zones. -/
  zones : Option Nat := none
  /-- Number of circuits compiled at the same time. -/
  workers : Option Nat := none
  /-- File for the compiled circuits, or nothing. -/
  output : String := ""
  /-- Whether statistics are reported. -/
  stats : Bool := false
  /-- Whether the success probability of each layer is reported. -/
  esp : Bool := false
  /-- Whether metrics are reported. -/
  metrics : Bool := false
  deriving Repr, DecidableEq

/-- What a flag does with its value. -/
inductive Setter where
  /-- A truth value, true if it is left out. -/
  | switch (set : Bool → Options → Options)
  /-- A number. -/
  | count (set : Nat → Options → Options)
  /-- Any text. -/
  | text (set : String → Options → Options)

/-- A flag. -/
structure Flag where
  /-- Its name. -/
  name : String
  /-- Its letter, if it has one. -/
  short : Option Char := none
  /-- Its effect. -/
  setter : Setter
  /-- One line on the flag. -/
  usage : String

/-- What is wrong with a command line. -/
inductive UsageError where
  /-- There is no such command. -/
  | unknownCommand (name : String)
  /-- There is no such flag. -/
  | unknownFlag (flag : String)
  /-- An argument is neither a flag nor anything else. -/
  | malformed (arg : String)
  /-- A flag stands at the end without its value. -/
  | missingValue (flag : String)
  /-- A flag has a value that cannot be read. -/
  | invalidValue (flag : String) (value : String)
  /-- A command has no argument where it needs one. -/
  | missingArgument
  /-- A command has an argument where it takes none. -/
  | surplusArgument (arg : String)
  deriving Repr, DecidableEq

/-- The wording of a wrong command line. -/
def UsageError.message : UsageError → String
  | unknownCommand name => "unknown command " ++ Text.quoted name
  | unknownFlag flag => "unknown flag: " ++ flag
  | malformed arg => "bad flag syntax: " ++ arg
  | missingValue flag => "flag needs an argument: " ++ flag
  | invalidValue flag value => "invalid argument " ++ Text.quoted value ++ " for " ++ flag
  | missingArgument => "requires at least 1 arg(s), only received 0"
  | surplusArgument arg => "unexpected argument " ++ Text.quoted arg

/-! ## Values -/

/-- The value of a digit below the given base. -/
def digitBelow? (base : Nat) (c : Char) : Option Nat :=
  let value :=
    if c.isDigit then c.toNat - '0'.toNat
    else if c.isLower then c.toNat - 'a'.toNat + 10
    else if c.isUpper then c.toNat - 'A'.toNat + 10
    else base
  if value < base then some value else none

/-- The base of a number, whether it is marked, and the digits after the mark.  The marks are
`0b`, `0o` and `0x` if something follows, and `0` otherwise. -/
def splitBase : List Char → Nat × Bool × List Char
  | '0' :: mark :: first :: rest =>
    match mark.toLower with
    | 'b' => (2, true, first :: rest)
    | 'o' => (8, true, first :: rest)
    | 'x' => (16, true, first :: rest)
    | _ => (8, true, mark :: first :: rest)
  | '0' :: rest => (8, true, rest)
  | digits => (10, false, digits)

/-- A number below `2 ^ 64`.  An underscore may stand between two digits and after the mark of
the base. -/
def parseNumber? (text : String) : Option Nat :=
  let (base, marked, digits) := splitBase text.toList
  match (String.ofList digits).splitOn "_" with
  | [] => none
  | first :: groups =>
    if (first != "" || marked) && groups.all (· != "") then
      let value := (first :: groups).flatMap String.toList |>.foldlM
        (fun n c => (digitBelow? base c).map (n * base + ·)) 0
      value.filter (· < Nat.pow 2 64)
    else none

namespace Flag

/-- Whether the value of a flag can be left out. -/
def isSwitch (f : Flag) : Bool :=
  match f.setter with
  | .switch _ => true
  | _ => false

/-- The options after a flag with its value. -/
def set (f : Flag) (value : String) (o : Options) : Except UsageError Options :=
  let changed : Option Options := match f.setter with
    | .switch set => (RunConfig.parseFlag? value).map fun v => set v o
    | .count set => (parseNumber? value).map fun v => set v o
    | .text set => some (set value o)
  match changed with
  | some o => .ok o
  | none => .error (.invalidValue ("--" ++ f.name) value)

/-- The flag of a name. -/
def named? (flags : List Flag) (name : String) : Option Flag := flags.find? (·.name == name)

/-- The flag of a letter. -/
def lettered? (flags : List Flag) (letter : Char) : Option Flag :=
  flags.find? (·.short == some letter)

end Flag

/-! ## Parsing -/

/-- How far a command line has been read. -/
structure Parse where
  /-- What the flags ask for. -/
  options : Options := {}
  /-- The arguments. -/
  arguments : List String := []
  /-- The flag whose value comes next. -/
  pending : Option Flag := none
  /-- Whether only arguments follow. -/
  literal : Bool := false

namespace Parse

/-- Gives a flag its value. -/
def set (s : Parse) (f : Flag) (value : String) : Except UsageError Parse :=
  match f.set value s.options with
  | .ok options => .ok { s with options, pending := none }
  | .error e => .error e

/-- A flag by its name, without the dashes. -/
def long (flags : List Flag) (s : Parse) (body : List Char) : Except UsageError Parse :=
  let name := body.takeWhile (· != '=')
  match name with
  | [] | '-' :: _ => .error (.malformed ("--" ++ String.ofList body))
  | _ =>
    match Flag.named? flags (String.ofList name) with
    | none => .error (.unknownFlag ("--" ++ String.ofList name))
    | some f =>
      match body.drop name.length with
      | _ :: value => s.set f (String.ofList value)
      | [] => if f.isSwitch then s.set f "true" else .ok { s with pending := some f }

/-- A group of letters, without the dash.  All but the last are switches, and the rest after the
last is its value. -/
def short (flags : List Flag) (s : Parse) : List Char → Except UsageError Parse
  | [] => .ok s
  | letter :: rest =>
    match Flag.lettered? flags letter with
    | none => .error (.unknownFlag ("-" ++ letter.toString))
    | some f =>
      match rest with
      | '=' :: first :: value => s.set f (String.ofList (first :: value))
      | _ =>
        if f.isSwitch then
          match s.set f "true" with
          | .ok s => short flags s rest
          | .error e => .error e
        else if rest.isEmpty then .ok { s with pending := some f }
        else s.set f (String.ofList rest)

/-- Reads one more part of the command line. -/
def step (flags : List Flag) (s : Parse) (arg : String) : Except UsageError Parse :=
  let argument : Parse := { s with arguments := s.arguments ++ [arg] }
  match s.pending with
  | some f => s.set f arg
  | none =>
    if s.literal then .ok argument
    else
      match arg.toList with
      | ['-', '-'] => .ok { s with literal := true }
      | '-' :: '-' :: body => s.long flags body
      | '-' :: letter :: rest => s.short flags (letter :: rest)
      | _ => .ok argument

end Parse

/-- The options and arguments of a command line. -/
def parseFlags (flags : List Flag) (args : List String) :
    Except UsageError (Options × List String) :=
  match args.foldlM (Parse.step flags) {} with
  | .error e => .error e
  | .ok s =>
    match s.pending with
    | some f => .error (.missingValue ("--" ++ f.name))
    | none => .ok (s.options, s.arguments)

end QuantumCompiler.CommandLine
