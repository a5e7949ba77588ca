import QuantumCompiler.Json.Basic

/-!
# Reading JSON texts

`Json.read?` accepts one value with blanks around it.  The grammar is the strict one: no leading
zeros, no comments, no trailing commas, no control characters inside strings.  Half of a
surrogate pair that stands alone is read as the replacement character.  Values may be nested
`maxDepth` deep.

Every function takes the text as a list of characters and gives back what it read with the rest of
the text.
-/

namespace QuantumCompiler.Json

/-- How deep arrays and objects may be nested. -/
def maxDepth : Nat := 10000

/-- The blanks of JSON. -/
def isBlank (c : Char) : Bool := c == ' ' || c == '\t' || c == '\n' || c == '\r'

/-- Drops blanks at the start. -/
def skipBlanks (cs : List Char) : List Char := cs.dropWhile isBlank

/-- What was read, and what follows. -/
abbrev Reading (α : Type) := Option (α × List Char)

/-- The value of a hexadecimal digit. -/
def hexDigit? (c : Char) : Option Nat :=
  if '0' ≤ c && c ≤ '9' then some (c.toNat - '0'.toNat)
  else if 'a' ≤ c && c ≤ 'f' then some (c.toNat - 'a'.toNat + 10)
  else if 'A' ≤ c && c ≤ 'F' then some (c.toNat - 'A'.toNat + 10)
  else none

/-- Four hexadecimal digits. -/
def hex4 : List Char → Reading Nat
  | a :: b :: c :: d :: rest =>
    match hexDigit? a, hexDigit? b, hexDigit? c, hexDigit? d with
    | some a, some b, some c, some d => some (((a * 16 + b) * 16 + c) * 16 + d, rest)
    | _, _, _, _ => none
  | _ => none

/-- The character that stands for text that is no character. -/
def replacement : Char := Char.ofNat 0xFFFD

/-- The character of a first escaped code unit, joined with a second one if the two are a
surrogate pair. -/
def unicodeEscape (unit : Nat) (rest : List Char) : Char × List Char :=
  if 0xD800 ≤ unit && unit < 0xDC00 then
    match rest with
    | '\\' :: 'u' :: after =>
      match hex4 after with
      | some (low, after) =>
        if 0xDC00 ≤ low && low < 0xE000 then
          (Char.ofNat (0x10000 + (unit - 0xD800) * 0x400 + (low - 0xDC00)), after)
        else (replacement, rest)
      | none => (replacement, rest)
    | _ => (replacement, rest)
  else if 0xDC00 ≤ unit && unit < 0xE000 then (replacement, rest)
  else (Char.ofNat unit, rest)

/-- The character of an escape, after the backslash. -/
def escape : List Char → Reading Char
  | '"' :: rest => some ('"', rest)
  | '\\' :: rest => some ('\\', rest)
  | '/' :: rest => some ('/', rest)
  | 'b' :: rest => some (Char.ofNat 8, rest)
  | 'f' :: rest => some (Char.ofNat 12, rest)
  | 'n' :: rest => some ('\n', rest)
  | 'r' :: rest => some ('\r', rest)
  | 't' :: rest => some ('\t', rest)
  | 'u' :: rest => (hex4 rest).map fun (unit, rest) => unicodeEscape unit rest
  | _ => none

/-- The characters of a string up to its closing quote. -/
def stringBody : Nat → List Char → List Char → Reading String
  | 0, _, _ => none
  | fuel + 1, read, cs =>
    match cs with
    | [] => none
    | '"' :: rest => some (String.ofList read.reverse, rest)
    | '\\' :: rest =>
      match escape rest with
      | some (c, rest) => stringBody fuel (c :: read) rest
      | none => none
    | c :: rest => if c.toNat < 0x20 then none else stringBody fuel (c :: read) rest

/-- Whether a character is a decimal digit. -/
def isDigit (c : Char) : Bool := '0' ≤ c && c ≤ '9'

/-- Digits, of which there is at least one. -/
def digits1 (cs : List Char) : Reading (List Char) :=
  let digits := cs.takeWhile isDigit
  if digits.isEmpty then none else some (digits, cs.dropWhile isDigit)

/-- The integer part of a number: a single zero, or digits that do not start with one. -/
def integerDigits : List Char → Reading (List Char)
  | '0' :: rest => some (['0'], rest)
  | cs => digits1 cs

/-- The fraction of a number, if there is one. -/
def fractionPart : List Char → Reading (List Char)
  | '.' :: rest => (digits1 rest).map fun (ds, rest) => ('.' :: ds, rest)
  | cs => some ([], cs)

/-- The exponent of a number, if there is one. -/
def exponentPart : List Char → Reading (List Char)
  | [] => some ([], [])
  | e :: cs =>
    if e == 'e' || e == 'E' then
      match cs with
      | '+' :: rest => (digits1 rest).map fun (ds, rest) => (e :: '+' :: ds, rest)
      | '-' :: rest => (digits1 rest).map fun (ds, rest) => (e :: '-' :: ds, rest)
      | cs => (digits1 cs).map fun (ds, rest) => (e :: ds, rest)
    else some ([], e :: cs)

/-- The literal of a number without its sign. -/
def unsignedLiteral (cs : List Char) : Reading (List Char) :=
  match integerDigits cs with
  | none => none
  | some (whole, cs) =>
    match fractionPart cs with
    | none => none
    | some (fraction, cs) =>
      (exponentPart cs).map fun (exponent, cs) => (whole ++ fraction ++ exponent, cs)

/-- The literal of a number. -/
def numberLiteral : List Char → Reading String
  | '-' :: rest => (unsignedLiteral rest).map fun (ds, rest) => (String.ofList ('-' :: ds), rest)
  | cs => (unsignedLiteral cs).map fun (ds, rest) => (String.ofList ds, rest)

/-- The items of an array, up to its closing bracket. -/
def items (value : List Char → Reading Json) : Nat → List Char → Reading (List Json)
  | 0, _ => none
  | fuel + 1, cs =>
    match value (skipBlanks cs) with
    | none => none
    | some (item, cs) =>
      match skipBlanks cs with
      | ',' :: rest => (items value fuel rest).map fun (others, rest) => (item :: others, rest)
      | ']' :: rest => some ([item], rest)
      | _ => none

/-- The key of a member with its colon. -/
def memberKey (cs : List Char) : Reading String :=
  match skipBlanks cs with
  | '"' :: cs =>
    match stringBody (cs.length + 1) [] cs with
    | none => none
    | some (key, cs) =>
      match skipBlanks cs with
      | ':' :: cs => some (key, cs)
      | _ => none
  | _ => none

/-- The members of an object, up to its closing brace. -/
def members (value : List Char → Reading Json) : Nat → List Char → Reading (List (String × Json))
  | 0, _ => none
  | fuel + 1, cs =>
    match memberKey cs with
    | none => none
    | some (key, cs) =>
      match value (skipBlanks cs) with
      | none => none
      | some (item, cs) =>
        match skipBlanks cs with
        | ',' :: rest =>
          (members value fuel rest).map fun (others, rest) => ((key, item) :: others, rest)
        | '}' :: rest => some ([(key, item)], rest)
        | _ => none

/-- A value nested at most so deep. -/
def value : Nat → List Char → Reading Json
  | depth, cs =>
    match cs with
    | 'n' :: 'u' :: 'l' :: 'l' :: rest => some (null, rest)
    | 't' :: 'r' :: 'u' :: 'e' :: rest => some (bool true, rest)
    | 'f' :: 'a' :: 'l' :: 's' :: 'e' :: rest => some (bool false, rest)
    | '"' :: rest => (stringBody (rest.length + 1) [] rest).map fun (s, rest) => (string s, rest)
    | '[' :: rest =>
      match depth with
      | 0 => none
      | depth + 1 =>
        match skipBlanks rest with
        | ']' :: rest => some (array [], rest)
        | rest =>
          (items (value depth) (rest.length + 1) rest).map fun (vs, rest) => (array vs, rest)
    | '{' :: rest =>
      match depth with
      | 0 => none
      | depth + 1 =>
        match skipBlanks rest with
        | '}' :: rest => some (object [], rest)
        | rest =>
          (members (value depth) (rest.length + 1) rest).map fun (ms, rest) => (object ms, rest)
    | cs => (numberLiteral cs).map fun (n, rest) => (number n, rest)

/-- The value that a text holds. -/
def read? (text : String) : Option Json :=
  match value maxDepth (skipBlanks text.toList) with
  | some (v, rest) => if (skipBlanks rest).isEmpty then some v else none
  | none => none

end QuantumCompiler.Json
