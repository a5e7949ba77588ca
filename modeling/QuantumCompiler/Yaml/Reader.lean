import QuantumCompiler.Yaml.Flow

/-!
# Reading YAML texts

`Yaml.read?` reads the first document of a text.  Mappings and sequences are laid out by
indentation: the entries of one collection start in the same column, and what belongs to an
entry starts further to the right.  A sequence that is the value of a key may also start in the
column of the key.

Anchors, tags, explicit keys and literal blocks are refused.
-/

namespace QuantumCompiler.Yaml

open QuantumCompiler.Json (Reading)

/-- A line of the text: the number of blanks in front, and what follows them. -/
structure Line where
  /-- Column of the first character. -/
  indent : Nat
  /-- The line without the blanks in front. -/
  chars : List Char

namespace Line

/-- A line from its characters. -/
def ofChars (cs : List Char) : Line := ⟨(cs.takeWhile (· == ' ')).length, cs.dropWhile (· == ' ')⟩

/-- All characters of a line. -/
def toChars (line : Line) : List Char := List.replicate line.indent ' ' ++ line.chars

/-- Whether a line holds nothing but blanks and a comment. -/
def isEmpty (line : Line) : Bool := restIsBlank line.chars

/-- Whether a line holds nothing but blanks. -/
def isBare (line : Line) : Bool := (line.chars.dropWhile isBlank).isEmpty

/-- Whether a line separates documents. -/
def isSeparator (line : Line) : Bool :=
  line.indent == 0 &&
    match line.chars with
    | '-' :: '-' :: '-' :: rest => atBreak rest
    | '.' :: '.' :: '.' :: rest => atBreak rest
    | _ => false

/-- Whether a line starts with an item of a sequence. -/
def isItem (line : Line) : Bool :=
  match line.chars with
  | '-' :: rest => atBreak rest
  | _ => false

end Line

/-- A text cut at its line ends. -/
def splitLines (cs : List Char) : List (List Char) :=
  cs.foldr (fun c lines => if c == '\n' then [] :: lines else
    match lines with
    | first :: rest => (c :: first) :: rest
    | [] => [[c]]) [[]]

/-- Lines as one text. -/
def joinLines : List Line → List Char
  | [] => []
  | line :: rest => '\n' :: line.toChars ++ joinLines rest

/-- Lines without the empty ones in front. -/
def significant (lines : List Line) : List Line := lines.dropWhile Line.isEmpty

/-! ## Scalars -/

/-- Whether a plain scalar can start here. -/
def startsPlain : List Char → Bool
  | [] => false
  | c :: rest =>
    if c == '-' || c == '?' || c == ':' then !atBreak rest else !isIndicator c && !isBlank c

/-- How the part of a plain scalar on one line ends. -/
inductive PlainEnd where
  /-- At the end of the line. -/
  | line
  /-- At a comment. -/
  | comment
  /-- At a colon, with what follows it. -/
  | colon (rest : List Char)

/-- The part of a plain scalar on one line; the characters read so far are in reverse order. -/
def plainPart (read : List Char) : List Char → List Char × PlainEnd
  | [] => ((read.dropWhile isBlank).reverse, .line)
  | c :: rest =>
    if c == ':' && atBreak rest then ((read.dropWhile isBlank).reverse, .colon rest)
    else if c == '#' && (read.head?.any isBlank) then ((read.dropWhile isBlank).reverse, .comment)
    else plainPart (c :: read) rest

/-- The further lines of a plain scalar, which start at a given column or to the right of it. -/
def plainLines (column : Nat) : Nat → List Char → List Line → Option (List Char × List Line)
  | _, text, [] => some (text, [])
  | bare, text, line :: rest =>
    if line.isBare then plainLines column (bare + 1) text rest
    else if line.isEmpty || line.indent < column || line.isSeparator then
      some (text, line :: rest)
    else
      let glue := if bare == 0 then [' '] else List.replicate bare '\n'
      match plainPart [] (line.chars.dropWhile isBlank) with
      | (part, .line) => plainLines column 0 (text ++ glue ++ part) rest
      | (part, .comment) => some (text ++ glue ++ part, rest)
      | (_, .colon _) => none

/-- The lines after a value that ended inside a line, of which only blanks and a comment may be
left. -/
def linesAfter (cs : List Char) : Option (List Line) :=
  if restIsBlank cs then
    match cs.dropWhile (· != '\n') with
    | [] => some []
    | _ :: rest => some ((splitLines rest).map Line.ofChars)
  else none

/-- A value that is neither a mapping nor a sequence laid out by indentation.  It starts in the
middle of a line; its further lines start at a given column or to the right of it. -/
def inlineValue (column : Nat) (cs : List Char) (rest : List Line) : Option (Yaml × List Line) :=
  match cs with
  | [] => none
  | c :: _ =>
    if c == '"' || c == singleQuote || c == '[' || c == Char.ofNat 123 then
      let stream := cs ++ joinLines rest
      match (if c == '"' || c == singleQuote then quotedScalar stream else bracketed stream) with
      | none => none
      | some (v, after) => (linesAfter after).map fun lines => (v, lines)
    else if startsPlain cs then
      match plainPart [] cs with
      | (text, .line) =>
        (plainLines column 0 text rest).map fun (text, rest) =>
          (scalar (String.ofList text) false, rest)
      | (text, .comment) => some (scalar (String.ofList text) false, rest)
      | (_, .colon _) => none
    else none

/-- The key at the start of a line and what follows its colon. -/
def key? (cs : List Char) : Option (Yaml × List Char) :=
  match quotedScalar cs with
  | some (key, rest) =>
    match rest.dropWhile isBlank with
    | ':' :: after => if atBreak after then some (key, after) else none
    | _ => none
  | none =>
    if startsPlain cs then
      match plainPart [] cs with
      | (text, .colon after) => some (scalar (String.ofList text) false, after)
      | _ => none
    else none

/-! ## Collections -/

mutual

/-- The value that starts with the first line, which is not empty. -/
def blockValue : Nat → Nat → List Line → Option (Yaml × List Line)
  | 0, _, _ => none
  | _, _, [] => none
  | fuel + 1, column, line :: rest =>
    if line.isItem then blockItems fuel line.indent [] (line :: rest)
    else if (key? line.chars).isSome then blockEntries fuel line.indent [] (line :: rest)
    else inlineValue column line.chars rest

/-- The value below a line in a given column, if there is one. -/
def valueBelow : Nat → Nat → List Line → Option (Yaml × List Line)
  | 0, _, _ => none
  | fuel + 1, column, lines =>
    match significant lines with
    | [] => some (null, [])
    | line :: rest =>
      if column < line.indent then blockValue fuel (column + 1) (line :: rest)
      else some (null, line :: rest)

/-- The items of a sequence in a column; those read so far are in reverse order. -/
def blockItems : Nat → Nat → List Yaml → List Line → Option (Yaml × List Line)
  | 0, _, _, _ => none
  | fuel + 1, column, read, lines =>
    match significant lines with
    | [] => some (sequence read.reverse, [])
    | line :: rest =>
      if column < line.indent then none
      else if line.indent < column || !line.isItem then some (sequence read.reverse, line :: rest)
      else
        let content := (line.chars.drop 1).dropWhile isBlank
        let item :=
          if restIsBlank (line.chars.drop 1) then valueBelow fuel column rest
          else blockValue fuel (column + 1)
            (⟨column + (line.chars.length - content.length), content⟩ :: rest)
        match item with
        | none => none
        | some (v, rest) => blockItems fuel column (v :: read) rest

/-- The entries of a mapping in a column; those read so far are in reverse order. -/
def blockEntries : Nat → Nat → List (Yaml × Yaml) → List Line → Option (Yaml × List Line)
  | 0, _, _, _ => none
  | fuel + 1, column, read, lines =>
    match significant lines with
    | [] => some (mapping read.reverse, [])
    | line :: rest =>
      if column < line.indent then none
      else if line.indent < column then some (mapping read.reverse, line :: rest)
      else
        match key? line.chars with
        | none => none
        | some (key, after) =>
          let value :=
            if restIsBlank after then
              match significant rest with
              | next :: more =>
                if next.indent == column && next.isItem then
                  blockItems fuel column [] (next :: more)
                else valueBelow fuel column rest
              | [] => some (null, [])
            else
              let content := after.dropWhile isBlank
              if (Line.mk 0 content).isItem then none else inlineValue (column + 1) content rest
          match value with
          | none => none
          | some (v, rest) => blockEntries fuel column ((key, v) :: read) rest

end

/-! ## Documents -/

/-- Line ends of all kinds as one character. -/
def unifyLineEnds : List Char → List Char
  | [] => []
  | '\r' :: '\n' :: rest => '\n' :: unifyLineEnds rest
  | '\r' :: rest => '\n' :: unifyLineEnds rest
  | c :: rest => c :: unifyLineEnds rest

/-- Whether a character may stand in a text. -/
def isPrintable (c : Char) : Bool :=
  let n := c.toNat
  n == 0x09 || n == 0x0A || n == 0x0D || (0x20 ≤ n && n ≤ 0x7E) || n == 0x85 ||
    (0xA0 ≤ n && n ≤ 0xD7FF)
    || (0xE000 ≤ n && n ≤ 0xFFFD && n != 0xFEFF) || 0x10000 ≤ n

/-- The lines of the first document.  What follows an opening separator on its line belongs to the
document. -/
def firstDocument (lines : List Line) : List Line :=
  match significant lines with
  | [] => []
  | line :: rest =>
    let body :=
      if line.isSeparator && line.chars.head? == some '-' then
        Line.ofChars (List.replicate 3 ' ' ++ line.chars.drop 3) :: rest
      else line :: rest
    body.takeWhile (!·.isSeparator)

/-- The value of a text: nothing if its first document is empty, and `none` if it is malformed. -/
def read? (text : String) : Option (Option Yaml) :=
  let cs := unifyLineEnds text.toList
  if !cs.all isPrintable then none
  else
    let lines := significant (firstDocument ((splitLines cs).map Line.ofChars))
    if lines.isEmpty then some none
    else
      match blockValue (4 * cs.length + 8) 0 lines with
      | some (v, rest) => if (significant rest).isEmpty then some (some v) else none
      | none => none

end QuantumCompiler.Yaml
