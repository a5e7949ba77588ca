/-!
# YAML values

A value is a scalar, a sequence or a mapping.  A scalar is kept as its text, together with
whether it stood in quotes: a quoted scalar is always a string, and a plain one may stand for a
number, a truth value or nothing at all.
-/

namespace QuantumCompiler

/-- A YAML value. -/
inductive Yaml where
  /-- A single text. -/
  | scalar (text : String) (quoted : Bool)
  /-- Items in order. -/
  | sequence (items : List Yaml)
  /-- Keys with their values, in order. -/
  | mapping (entries : List (Yaml × Yaml))

namespace Yaml

/-- The value of a key that is given none. -/
def null : Yaml := scalar "" false

/-- The characters that separate words on a line. -/
def isBlank (c : Char) : Bool := c == ' ' || c == '\t'

/-- Whether a word may end here: at a blank, a line end or the end of the text. -/
def atBreak : List Char → Bool
  | [] => true
  | c :: _ => isBlank c || c == '\n'

/-- Whether nothing but blanks and a comment is left on the line. -/
def restIsBlank (cs : List Char) : Bool :=
  match cs.dropWhile isBlank with
  | [] => true
  | c :: _ => c == '#' || c == '\n'

end Yaml

end QuantumCompiler
