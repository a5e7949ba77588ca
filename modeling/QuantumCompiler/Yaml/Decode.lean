import QuantumCompiler.Numeric.Binary64
import QuantumCompiler.Yaml.Scalar

/-!
# Values from YAML

A `Yaml.Decoder` takes what is known of a value already and a YAML value.  It gives the new
value, or tells that nothing was given, or fails because the YAML value has the wrong type.  A
field for which nothing is given keeps its value, and such an item of a list is left out.
-/

namespace QuantumCompiler.Yaml

/-- The outcome of reading a value. -/
inductive Decoded (α : Type) where
  /-- The new value. -/
  | value (a : α)
  /-- Nothing was given. -/
  | missing
  /-- The YAML value has the wrong type. -/
  | failure

/-- Reads a YAML value onto the value known so far. -/
abbrev Decoder (α : Type) := α → Yaml → Decoded α

/-- A decoder of scalars. -/
def ofValue {α : Type} (f : String → Value → Option α) : Decoder α
  | _, scalar text quoted =>
    match Value.ofScalar text quoted with
    | .null => .missing
    | v =>
      match f text v with
      | some a => .value a
      | none => .failure
  | _, _ => .failure

/-- An unsigned 64 bit integer.  The fraction of a floating point number is dropped. -/
def decodeNat : Decoder Nat :=
  ofValue fun _ v =>
    match v with
    | .int i => if 0 ≤ i then some i.toNat else none
    | .float x => if x ≤ Float.ofNat (Nat.pow 2 64) then some (Binary64.decode x).toWord else none
    | _ => none

/-- A floating point number. -/
def decodeFloat : Decoder Float :=
  ofValue fun _ v =>
    match v with
    | .int i => some (if 0 ≤ i then Float.ofNat i.toNat else -Float.ofNat (-i).toNat)
    | .float x => some x
    | _ => none

/-- A string, for which the text of any scalar is taken. -/
def decodeString : Decoder String := ofValue fun text _ => some text

/-- A truth value, for which some more words are taken. -/
def decodeBool : Decoder Bool :=
  ofValue fun _ v =>
    match v with
    | .bool b => some b
    | .text s =>
      if ["y", "Y", "yes", "Yes", "YES", "on", "On", "ON"].contains s then some true
      else if ["n", "N", "no", "No", "NO", "off", "Off", "OFF"].contains s then some false
      else none
    | _ => none

/-- Items of a list, each from a fresh value. -/
def decodeItems {α : Type} (fresh : α) (item : Decoder α) : List Yaml → Option (List α)
  | [] => some []
  | v :: rest =>
    match item fresh v with
    | .value a => (decodeItems fresh item rest).map (a :: ·)
    | .missing => decodeItems fresh item rest
    | .failure => none

/-- A list. -/
def decodeList {α : Type} (fresh : α) (item : Decoder α) : Decoder (List α)
  | _, sequence items =>
    match decodeItems fresh item items with
    | some as => .value as
    | none => .failure
  | _, scalar text quoted =>
    match Value.ofScalar text quoted with
    | .null => .missing
    | _ => .failure
  | _, mapping _ => .failure

/-- A field of a record: its key, and how its value changes the record. -/
structure Field (σ : Type) where
  /-- Key of the field. -/
  key : String
  /-- Reads the value of the field into the record. -/
  update : Decoder σ

/-- A field by its key and the way to read and to set it. -/
def field {σ β : Type} (key : String) (decoder : Decoder β) (get : σ → β) (set : β → σ → σ) :
    Field σ :=
  ⟨key, fun s v =>
    match decoder (get s) v with
    | .value b => .value (set b s)
    | .missing => .missing
    | .failure => .failure⟩

/-- Entries read into a record one after the other.  A key without a field is an error if the
record is closed, and is passed over otherwise. -/
def decodeEntries {σ : Type} (closed : Bool) (fields : List (Field σ)) :
    σ → List (Yaml × Yaml) → Option σ
  | s, [] => some s
  | s, (key, v) :: rest =>
    match decodeString "" key with
    | .failure => none
    | .missing => decodeEntries closed fields s rest
    | .value name =>
      match fields.find? (·.key == name) with
      | none => if closed then none else decodeEntries closed fields s rest
      | some f =>
        match f.update s v with
        | .value s => decodeEntries closed fields s rest
        | .missing => decodeEntries closed fields s rest
        | .failure => none

/-- The texts of the scalars among the keys of a mapping. -/
def keyTexts (entries : List (Yaml × Yaml)) : List String :=
  entries.filterMap fun (key, _) =>
    match key with
    | scalar text _ => some text
    | _ => none

/-- A record by its fields.  No key may be given twice. -/
def decodeRecord {σ : Type} (closed : Bool) (fields : List (Field σ)) : Decoder σ
  | s, mapping entries =>
    if !decide (keyTexts entries).Nodup then .failure
    else
      match decodeEntries closed fields s entries with
      | some s => .value s
      | none => .failure
  | _, scalar text quoted =>
    match Value.ofScalar text quoted with
    | .null => .missing
    | _ => .failure
  | _, sequence _ => .failure

end QuantumCompiler.Yaml
