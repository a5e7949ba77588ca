import QuantumCompiler.Json.Basic

/-!
# Writing JSON texts

`Json.compact` writes a value without blanks.  `Json.indented` writes one member or item a line.
-/

namespace QuantumCompiler.Json

/-- A hexadecimal digit. -/
def hexChar (n : Nat) : Char :=
  if n < 10 then Char.ofNat ('0'.toNat + n) else Char.ofNat ('a'.toNat + n - 10)

/-- Whether a character stands for itself inside a string.  Besides quotes, backslashes and
control characters, those are escaped that would end a script or start a tag in a page around
the text. -/
def isPlain (c : Char) : Bool :=
  0x20 ≤ c.toNat && !(['"', '\\', '<', '>', '&', Char.ofNat 0x2028, Char.ofNat 0x2029].contains c)

/-- The escape of a character by four hexadecimal digits. -/
def hexEscape (n : Nat) : List Char :=
  ['\\', 'u', hexChar (n / 4096 % 16), hexChar (n / 256 % 16), hexChar (n / 16 % 16),
    hexChar (n % 16)]

/-- A character inside a string. -/
def quotedChar (c : Char) : List Char :=
  if isPlain c then [c]
  else if c == '"' then ['\\', '"']
  else if c == '\\' then ['\\', '\\']
  else if c == '\n' then ['\\', 'n']
  else if c == '\r' then ['\\', 'r']
  else if c == '\t' then ['\\', 't']
  else if c.toNat == 8 then ['\\', 'b']
  else if c.toNat == 12 then ['\\', 'f']
  else hexEscape c.toNat

/-- A string with its quotes. -/
def quoted (s : String) : String := "\"" ++ String.ofList (s.toList.flatMap quotedChar) ++ "\""

mutual

/-- Text without blanks. -/
def compact : Json → String
  | null => "null"
  | bool true => "true"
  | bool false => "false"
  | number literal => literal
  | string s => quoted s
  | array items => "[" ++ ",".intercalate (compactItems items) ++ "]"
  | object members => "\x7b" ++ ",".intercalate (compactMembers members) ++ "\x7d"

/-- Texts of the items of an array. -/
def compactItems : List Json → List String
  | [] => []
  | v :: rest => compact v :: compactItems rest

/-- Texts of the members of an object. -/
def compactMembers : List (String × Json) → List String
  | [] => []
  | (key, v) :: rest => (quoted key ++ ":" ++ compact v) :: compactMembers rest

end

mutual

/-- Text with one item or member a line, each line after the first starting with a margin, and
nested lines with two more blanks. -/
def indented (margin : String) : Json → String
  | array [] => "[]"
  | object [] => "\x7b\x7d"
  | array items =>
    let inner := margin ++ "  "
    "[\n" ++ ",\n".intercalate (indentedItems inner items) ++ "\n" ++ margin ++ "]"
  | object members =>
    let inner := margin ++ "  "
    "\x7b\n" ++ ",\n".intercalate (indentedMembers inner members) ++ "\n" ++ margin ++ "\x7d"
  | v => compact v

/-- Lines of the items of an array. -/
def indentedItems (margin : String) : List Json → List String
  | [] => []
  | v :: rest => (margin ++ indented margin v) :: indentedItems margin rest

/-- Lines of the members of an object. -/
def indentedMembers (margin : String) : List (String × Json) → List String
  | [] => []
  | (key, v) :: rest =>
    (margin ++ quoted key ++ ": " ++ indented margin v) :: indentedMembers margin rest

end

end QuantumCompiler.Json
