import QuantumCompiler.Json.Decode
import QuantumCompiler.Yaml.Basic

/-!
# What a scalar stands for

`Yaml.Value.ofScalar` reads the text of a plain scalar: first as one of the words for nothing,
truth values, infinities and not-a-number, then as an integer, then as a decimal number.  All
other texts, and all quoted ones, are strings.
-/

namespace QuantumCompiler.Yaml

/-- What a scalar stands for. -/
inductive Value where
  /-- Nothing is given. -/
  | null
  /-- A truth value. -/
  | bool (b : Bool)
  /-- An integer. -/
  | int (i : Int)
  /-- A floating point number. -/
  | float (x : Float)
  /-- A string. -/
  | text (s : String)

/-- The value of a digit in a base of at most sixteen. -/
def digit? (base : Nat) (c : Char) : Option Nat :=
  let value :=
    if '0' ≤ c && c ≤ '9' then some (c.toNat - '0'.toNat)
    else if 'a' ≤ c && c ≤ 'f' then some (c.toNat - 'a'.toNat + 10)
    else if 'A' ≤ c && c ≤ 'F' then some (c.toNat - 'A'.toNat + 10)
    else none
  value.filter (· < base)

/-- A number without sign in a base, of at least one digit. -/
def naturalIn (base : Nat) (cs : List Char) : Option Nat :=
  if cs.isEmpty then none
  else (cs.mapM (digit? base)).map fun ds => ds.foldl (fun n d => base * n + d) 0

/-- A number without sign, whose base is told by its first characters. -/
def natural? : List Char → Option Nat
  | '0' :: c :: rest =>
    if c == 'x' || c == 'X' then naturalIn 16 rest
    else if c == 'b' || c == 'B' then naturalIn 2 rest
    else if c == 'o' || c == 'O' then naturalIn 8 rest
    else naturalIn 8 (c :: rest)
  | cs => naturalIn 10 cs

/-- A number with an optional sign in front, within the range of 64 bit words: the sign allows
only half of it. -/
def signed? (magnitude : List Char → Option Nat) : List Char → Option Int
  | '-' :: rest => ((magnitude rest).filter (· ≤ Nat.pow 2 63)).map fun n => -(n : Int)
  | '+' :: rest => ((magnitude rest).filter (· < Nat.pow 2 63)).map Int.ofNat
  | cs => ((magnitude cs).filter (· < Nat.pow 2 64)).map Int.ofNat

/-- An integer.  A sign may also stand between the mark of base two or eight and the digits. -/
def integer? (cs : List Char) : Option Int :=
  match signed? natural? cs with
  | some i => some i
  | none =>
    match cs with
    | '0' :: 'b' :: rest => signed? (naturalIn 2) rest
    | '0' :: 'o' :: rest => signed? (naturalIn 8) rest
    | _ => none

/-- The digits at the start, and what follows them. -/
def spanDigits (cs : List Char) : List Char × List Char :=
  (cs.takeWhile Char.isDigit, cs.dropWhile Char.isDigit)

/-- Whether a text is an exponent, or empty. -/
def isExponent : List Char → Bool
  | [] => true
  | c :: rest =>
    let digits := match rest with
      | '+' :: ds | '-' :: ds => ds
      | ds => ds
    (c == 'e' || c == 'E') && !digits.isEmpty && digits.all Char.isDigit

/-- Whether a text is a decimal number with optional sign, fraction and exponent. -/
def isDecimal (cs : List Char) : Bool :=
  let cs := match cs with
    | '+' :: rest | '-' :: rest => rest
    | cs => cs
  let (whole, rest) := spanDigits cs
  match rest with
  | '.' :: after =>
    let (fraction, rest) := spanDigits after
    !(whole.isEmpty && fraction.isEmpty) && isExponent rest
  | rest => !whole.isEmpty && isExponent rest

/-- The words with a meaning of their own. -/
def word? : String → Option Value
  | "" | "~" | "null" | "Null" | "NULL" => some .null
  | "true" | "True" | "TRUE" => some (.bool true)
  | "false" | "False" | "FALSE" => some (.bool false)
  | ".nan" | ".NaN" | ".NAN" => some (.float (0.0 / 0.0))
  | ".inf" | ".Inf" | ".INF" | "+.inf" | "+.Inf" | "+.INF" => some (.float (1.0 / 0.0))
  | "-.inf" | "-.Inf" | "-.INF" => some (.float (-1.0 / 0.0))
  | _ => none

/-- The number that a text stands for.  Underscores in it are passed over, unless it starts with
a point. -/
def number? (cs : List Char) : Option Value :=
  match cs with
  | [] => none
  | c :: _ =>
    let decimal (cs : List Char) : Option Value :=
      if isDecimal cs then (Json.literalFloat? (String.ofList cs)).map Value.float else none
    if c == '.' then decimal cs
    else if c.isDigit || c == '+' || c == '-' then
      let digits := cs.filter (· != '_')
      match signed? natural? digits with
      | some i => some (.int i)
      | none =>
        match decimal digits with
        | some x => some x
        | none => (integer? digits).map Value.int
    else none

/-- What a scalar stands for. -/
def Value.ofScalar (text : String) (quoted : Bool) : Value :=
  if quoted then .text text
  else
    match word? text with
    | some v => v
    | none => (number? text.toList).getD (.text text)

end QuantumCompiler.Yaml
