import QuantumCompiler.CommandLine.Run

/-!
# The program

Gathers the environment and the files that a run needs, runs the command line, and prints and
writes the outcome.
-/

namespace QuantumCompiler

/-- The start of the names of the program's variables. -/
def variableStart : String := "TRANSPILE_"

/-- The variables of the environment that are set. -/
def readEnv : IO (List (String × String)) :=
  RunConfig.settings.filterMapM fun name => do
    return (← IO.getEnv (variableStart ++ name)).map (name, ·)

/-- A file, if it can be read. -/
def readFile? (name : String) : IO (Option (String × String)) := do
  try
    return some (Files.plainName name, ← IO.FS.readFile name)
  catch _ => return none

/-- Whether a directory is there. -/
def directoryExists (name : String) : IO Bool := do
  try
    let _ ← IO.FS.realPath name
    return true
  catch _ => return false

/-- The invocation with the files that it reads. -/
def gather (i : CommandLine.Invocation) : IO CommandLine.Invocation := do
  return { i with files := ← i.inputs.filterMapM readFile? }

end QuantumCompiler

open QuantumCompiler in
/-- Runs the program.  The files are gathered twice, since the configuration file can name a
device file. -/
def main (args : List String) : IO UInt32 := do
  let i ← gather (← gather { args, env := ← readEnv })
  let directories ← [i.outputDirectory].filterM directoryExists
  let outcome := CommandLine.run { i with directories }
  IO.print outcome.output
  IO.eprint outcome.errors
  for (name, content) in outcome.written do
    IO.FS.writeFile name content
  return outcome.exit.toUInt32
