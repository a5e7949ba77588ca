/-!
# Files by name

Commands read and write files by their names.  They are given the files as a list, so that what
a command does is a function of its input.
-/

namespace QuantumCompiler

/-- Files with their contents. -/
abbrev Files := List (String × String)

namespace Files

/-- A name without the mark of the current directory. -/
def plainName (name : String) : String :=
  match name.toList with
  | '.' :: '/' :: rest => String.ofList rest
  | _ => name

/-- The content of a file. -/
def read? (files : Files) (name : String) : Option String :=
  (files.find? (·.1 == plainName name)).map (·.2)

/-- The directory part of a name, which is empty for the current directory. -/
def directory (name : String) : String :=
  String.ofList (((plainName name).toList.reverse.dropWhile (· != '/')).drop 1).reverse

/-- Whether a file can be written: it must have a name, and its directory must be the current or
another known one. -/
def canWrite (directories : List String) (name : String) : Bool :=
  name != "" && (directory name == "" || directories.contains (directory name))

/-- The wording for a file that cannot be opened. -/
def missing (name : String) : String := "open " ++ name ++ ": no such file or directory"

/-- The part of a name from its last point on, if that comes after the last slash. -/
def extension (name : String) : String :=
  let reversed := name.toList.reverse
  let last := reversed.takeWhile (· != '/')
  if last.contains '.' then String.ofList ('.' :: (last.takeWhile (· != '.')).reverse) else ""

end Files

end QuantumCompiler
