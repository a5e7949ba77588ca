import QuantumCompiler.Json.Reader
import QuantumCompiler.Yaml.Basic

/-!
# Quoted scalars and bracketed collections

Values that show where they end: strings in quotes, sequences in square brackets, mappings in
braces.  They may go over several lines; a line end inside a string counts as one blank, and
blank lines are kept as line ends.  Every function takes the text as a list of characters and
gives back what it read with the rest of the text.
-/

namespace QuantumCompiler.Yaml

open QuantumCompiler.Json (Reading hexDigit?)

/-- The quote that ends a single-quoted string. -/
def singleQuote : Char := Char.ofNat 39

/-! ## Strings in quotes -/

/-- Blanks and line ends at the start of a text. -/
def spanSpace (cs : List Char) : List Char × List Char :=
  let isSpace (c : Char) : Bool := isBlank c || c == '\n'
  (cs.takeWhile isSpace, cs.dropWhile isSpace)

/-- What blanks and line ends inside a string stand for: on one line themselves, a single line
end for a blank, and several for one line end less. -/
def foldSpace (space : List Char) : List Char :=
  match space.count '\n' with
  | 0 => space
  | 1 => [' ']
  | n + 1 => List.replicate n '\n'

/-- A number of hexadecimal digits as a character. -/
def hexChar (digits : Nat) (cs : List Char) : Reading (List Char) :=
  match (cs.take digits).mapM hexDigit? with
  | none => none
  | some ds =>
    let code := ds.foldl (fun n d => 16 * n + d) 0
    if ds.length == digits && code.isValidChar then some ([Char.ofNat code], cs.drop digits)
    else none

/-- The characters of an escape, after the backslash. -/
def escaped : List Char → Reading (List Char)
  | [] => none
  | '\n' :: rest => some ([], rest.dropWhile isBlank)
  | 'x' :: rest => hexChar 2 rest
  | 'u' :: rest => hexChar 4 rest
  | 'U' :: rest => hexChar 8 rest
  | c :: rest =>
    let code : Option Nat := match c with
      | '0' => some 0
      | 'a' => some 7
      | 'b' => some 8
      | 't' | '\t' => some 9
      | 'n' => some 10
      | 'v' => some 11
      | 'f' => some 12
      | 'r' => some 13
      | 'e' => some 27
      | ' ' => some 32
      | '"' => some 34
      | '/' => some 47
      | '\\' => some 92
      | 'N' => some 0x85
      | '_' => some 0xA0
      | 'L' => some 0x2028
      | 'P' => some 0x2029
      | _ => if c == singleQuote then some 39 else none
    code.map fun code => ([Char.ofNat code], rest)

/-- A string after its opening double quote. -/
def doubleQuoted : Nat → List Char → List Char → Reading String
  | 0, _, _ => none
  | fuel + 1, read, cs =>
    match cs with
    | [] => none
    | '"' :: rest => some (String.ofList read.reverse, rest)
    | '\\' :: rest =>
      match escaped rest with
      | some (chars, rest) => doubleQuoted fuel (chars.reverse ++ read) rest
      | none => none
    | c :: rest =>
      if isBlank c || c == '\n' then
        let (space, rest) := spanSpace (c :: rest)
        doubleQuoted fuel ((foldSpace space).reverse ++ read) rest
      else doubleQuoted fuel (c :: read) rest

/-- A string after its opening single quote.  A quote inside the string is written twice. -/
def singleQuoted : Nat → List Char → List Char → Reading String
  | 0, _, _ => none
  | fuel + 1, read, cs =>
    match cs with
    | [] => none
    | c :: rest =>
      if c == singleQuote then
        match rest with
        | d :: after => if d == singleQuote then singleQuoted fuel (d :: read) after
          else some (String.ofList read.reverse, rest)
        | [] => some (String.ofList read.reverse, [])
      else if isBlank c || c == '\n' then
        let (space, rest) := spanSpace (c :: rest)
        singleQuoted fuel ((foldSpace space).reverse ++ read) rest
      else singleQuoted fuel (c :: read) rest

/-- A string in quotes of either kind, if the text starts with one. -/
def quotedScalar (cs : List Char) : Reading Yaml :=
  match cs with
  | [] => none
  | c :: rest =>
    let body :=
      if c == '"' then doubleQuoted cs.length [] rest
      else if c == singleQuote then singleQuoted cs.length [] rest
      else none
    body.map fun (s, rest) => (scalar s true, rest)

/-! ## Collections in brackets -/

/-- Drops blanks, line ends and comments at the start. -/
def skipSpace : Nat → List Char → List Char
  | 0, cs => cs
  | fuel + 1, cs =>
    match (spanSpace cs).2 with
    | '#' :: rest => skipSpace fuel (rest.dropWhile (· != '\n'))
    | cs => cs

/-- The characters that start something else than a plain scalar. -/
def isIndicator (c : Char) : Bool :=
  ",[]\x7b\x7d#&*!|>\"%@\x60".toList.contains c || c == singleQuote

/-- The characters that end a plain scalar inside brackets. -/
def isFlowMark (c : Char) : Bool := ",?[]\x7b\x7d".toList.contains c

/-- Whether a plain scalar can start here inside brackets. -/
def startsFlowPlain : List Char → Bool
  | [] => false
  | '-' :: rest => !atBreak rest
  | c :: _ => !isIndicator c && !isBlank c && c != '\n' && c != '?' && c != ':'

/-- A plain scalar inside brackets; the characters read so far are in reverse order. -/
def flowPlain : Nat → List Char → List Char → List Char × List Char
  | 0, read, cs => (read.reverse, cs)
  | fuel + 1, read, cs =>
    match cs with
    | [] => (read.reverse, [])
    | c :: rest =>
      if isFlowMark c || (c == ':' && atBreak rest) then (read.reverse, cs)
      else if isBlank c || c == '\n' then
        let (space, after) := spanSpace cs
        match after with
        | [] => (read.reverse, [])
        | d :: more =>
          if d == '#' || isFlowMark d || (d == ':' && atBreak more) then (read.reverse, cs)
          else flowPlain fuel ((foldSpace space).reverse ++ read) after
      else flowPlain fuel (c :: read) rest

mutual

/-- A value inside brackets, or one that starts with a bracket. -/
def flowValue : Nat → List Char → Reading Yaml
  | 0, _ => none
  | fuel + 1, cs =>
    match cs with
    | [] => none
    | '[' :: rest => flowItems fuel [] (skipSpace fuel rest)
    | c :: rest =>
      if c == Char.ofNat 123 then flowEntries fuel [] (skipSpace fuel rest)
      else if c == '"' || c == singleQuote then quotedScalar cs
      else if startsFlowPlain cs then
        let (text, rest) := flowPlain cs.length [] cs
        some (scalar (String.ofList text) false, rest)
      else none

/-- The value after a colon inside brackets, which may be missing. -/
def flowAfterColon : Nat → List Char → Reading Yaml
  | 0, _ => none
  | fuel + 1, cs =>
    match skipSpace cs.length cs with
    | [] => none
    | c :: rest => if c == ',' || c == ']' || c == Char.ofNat 125 then some (null, c :: rest)
      else flowValue fuel (c :: rest)

/-- Items up to the closing square bracket; those read so far are in reverse order.  An item
with a colon is a mapping with one entry. -/
def flowItems : Nat → List Yaml → List Char → Reading Yaml
  | 0, _, _ => none
  | fuel + 1, read, cs =>
    match cs with
    | ']' :: rest => some (sequence read.reverse, rest)
    | cs =>
      match flowValue fuel cs with
      | none => none
      | some (item, rest) =>
        match skipSpace rest.length rest with
        | ':' :: rest =>
          match flowAfterColon fuel rest with
          | none => none
          | some (v, rest) =>
            flowItemsRest fuel (mapping [(item, v)] :: read) (skipSpace rest.length rest)
        | rest => flowItemsRest fuel (item :: read) rest

/-- What follows an item: a comma and more, or the closing square bracket. -/
def flowItemsRest : Nat → List Yaml → List Char → Reading Yaml
  | 0, _, _ => none
  | fuel + 1, read, cs =>
    match cs with
    | ',' :: rest => flowItems fuel read (skipSpace rest.length rest)
    | ']' :: rest => some (sequence read.reverse, rest)
    | _ => none

/-- Entries up to the closing brace; those read so far are in reverse order. -/
def flowEntries : Nat → List (Yaml × Yaml) → List Char → Reading Yaml
  | 0, _, _ => none
  | fuel + 1, read, cs =>
    match cs with
    | [] => none
    | c :: rest =>
      if c == Char.ofNat 125 then some (mapping read.reverse, rest)
      else
        match flowValue fuel cs with
        | none => none
        | some (key, rest) =>
          match skipSpace rest.length rest with
          | ':' :: rest =>
            match flowAfterColon fuel rest with
            | none => none
            | some (v, rest) =>
              flowEntriesRest fuel ((key, v) :: read) (skipSpace rest.length rest)
          | rest => flowEntriesRest fuel ((key, null) :: read) rest

/-- What follows an entry: a comma and more, or the closing brace. -/
def flowEntriesRest : Nat → List (Yaml × Yaml) → List Char → Reading Yaml
  | 0, _, _ => none
  | fuel + 1, read, cs =>
    match cs with
    | ',' :: rest => flowEntries fuel read (skipSpace rest.length rest)
    | c :: rest => if c == Char.ofNat 125 then some (mapping read.reverse, rest) else none
    | [] => none

end

/-- A collection in brackets at the start of a text. -/
def bracketed (cs : List Char) : Reading Yaml := flowValue (4 * cs.length + 4) cs

end QuantumCompiler.Yaml
