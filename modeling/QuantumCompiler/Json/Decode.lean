import QuantumCompiler.Json.Basic

/-!
# Values from JSON

A `Json.Decoder` takes what is known of a value already and a JSON value, and gives the new
value, or `none` if the JSON value has the wrong type.  Records are read member by member: a key
is matched with its field regardless of case, unknown keys are passed over, and a repeated key
decodes onto what the earlier one left.  `null` leaves numbers, strings and records as they are
and empties a list.

A list that is read again may be shorter than before.  The items behind its end are not
forgotten: the next reading that is long enough decodes onto them.  So a list is held in `Slots`
while a record is being read.
-/

namespace QuantumCompiler.Json

/-- Reads a JSON value onto the value known so far. -/
abbrev Decoder (α : Type) := α → Json → Option α

/-! ## Numbers from literals -/

/-- The natural number of decimal digits. -/
def digitsValue (ds : List Char) : Nat := ds.foldl (fun n c => 10 * n + (c.toNat - '0'.toNat)) 0

/-- An unsigned 64 bit integer: digits only. -/
def literalNat? (literal : String) : Option Nat :=
  let ds := literal.toList
  let n := digitsValue ds
  if !ds.isEmpty && ds.all (fun c => '0' ≤ c && c ≤ '9') && n < Nat.pow 2 64 then some n else none

/-- Sign and exponent digits of a number literal, after the letter. -/
def exponentValue : List Char → Int
  | '+' :: ds => digitsValue ds
  | '-' :: ds => -(digitsValue ds : Int)
  | ds => digitsValue ds

/-- The floating point number nearest to a decimal literal, if it is in range.  The literal is
digits with an optional sign, fraction and exponent. -/
def literalFloat? (literal : String) : Option Float :=
  let cs := literal.toList
  let negative := cs.head? == some '-'
  let cs := if negative || cs.head? == some '+' then cs.drop 1 else cs
  let isMark (c : Char) : Bool := c == 'e' || c == 'E'
  let mantissa := cs.takeWhile (!isMark ·)
  let exponent := (cs.dropWhile (!isMark ·)).drop 1
  let whole := mantissa.takeWhile (· != '.')
  let fraction := (mantissa.dropWhile (· != '.')).drop 1
  Decimal.read negative (digitsValue (whole ++ fraction))
    (exponentValue exponent - (fraction.length : Int))

/-! ## Decoders -/

/-- An unsigned 64 bit integer. -/
def decodeNat : Decoder Nat
  | old, null => some old
  | _, number literal => literalNat? literal
  | _, _ => none

/-- A floating point number. -/
def decodeFloat : Decoder Float
  | old, null => some old
  | _, number literal => literalFloat? literal
  | _, _ => none

/-- A string. -/
def decodeString : Decoder String
  | old, null => some old
  | _, string s => some s
  | _, _ => none

/-- A list that is being read. -/
structure Slots (α : Type) where
  /-- Items of the list. -/
  items : List α := []
  /-- What earlier readings have left behind the end of the list. -/
  spare : List α := []

/-- Everything that the next reading can decode onto. -/
def Slots.all {α : Type} (s : Slots α) : List α := s.items ++ s.spare

/-- Items of a list, each read onto what is there already, or else onto a fresh value. -/
def decodeItems {α : Type} (fresh : α) (item : Decoder α) :
    List α → List Json → Option (List α)
  | _, [] => some []
  | old, v :: rest => do
    let x ← item (old.headD fresh) v
    let xs ← decodeItems fresh item old.tail rest
    some (x :: xs)

/-- A list.  Only an empty one leaves nothing to decode onto. -/
def decodeList {α : Type} (fresh : α) (item : Decoder α) : Decoder (Slots α)
  | _, null => some {}
  | _, array [] => some {}
  | old, array (v :: rest) => do
    let items ← decodeItems fresh item old.all (v :: rest)
    some ⟨items, old.all.drop items.length⟩
  | _, _ => none

/-- A field of a record: its key, and how its value changes the record. -/
structure Field (σ : Type) where
  /-- Key of the field. -/
  key : String
  /-- Reads the value of the field into the record. -/
  update : Decoder σ

/-- A field by its key and the way to read and to set it. -/
def field {σ β : Type} (key : String) (decoder : Decoder β) (get : σ → β) (set : β → σ → σ) :
    Field σ :=
  ⟨key, fun s v => (decoder (get s) v).map fun b => set b s⟩

/-- A letter without its case.  The long s and the Kelvin sign count as letters of the Latin
alphabet. -/
def foldCase (c : Char) : Char :=
  if c.toNat == 0x17F then 's' else if c.toNat == 0x212A then 'k' else c.toLower

/-- Whether two keys agree regardless of case. -/
def sameKey (a b : String) : Bool := a.toList.map foldCase == b.toList.map foldCase

/-- Members read into a record one after the other. -/
def decodeMembers {σ : Type} (fields : List (Field σ)) : σ → List (String × Json) → Option σ
  | s, [] => some s
  | s, (key, v) :: rest =>
    match fields.find? (sameKey ·.key key) with
    | none => decodeMembers fields s rest
    | some f =>
      match f.update s v with
      | some s => decodeMembers fields s rest
      | none => none

/-- A record by its fields. -/
def decodeRecord {σ : Type} (fields : List (Field σ)) : Decoder σ
  | s, null => some s
  | s, object members => decodeMembers fields s members
  | _, _ => none

end QuantumCompiler.Json
