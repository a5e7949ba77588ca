import QuantumCompiler.Circuit.Basic
import QuantumCompiler.Json.Decode
import QuantumCompiler.Json.Reader
import QuantumCompiler.Json.Writer

/-!
# Circuits as JSON

A circuit is an object with the members `num_qubits`, `num_clbits` and `operations`; an
operation is an object with the members `kind`, `params`, `qubits` and `clbits`.  Missing
members are zero or empty.  Reading checks every operation as it is added.
-/

namespace QuantumCompiler

namespace Operation

/-- An operation that is being read. -/
structure Draft where
  kind : Kind := Kind.ofName ""
  params : Json.Slots Float := {}
  qubits : Json.Slots Nat := {}
  clbits : Json.Slots Nat := {}

namespace Draft

/-- The operation as far as it was read. -/
def operation (d : Draft) : Operation Float where
  kind := d.kind
  params := d.params.items
  qubits := d.qubits.items
  clbits := d.clbits.items

/-- The members of an operation. -/
def jsonFields : List (Json.Field Draft) :=
  [ Json.field "kind" Json.decodeString (·.kind.name)
      fun name d => { d with kind := Kind.ofName name },
    Json.field "params" (Json.decodeList 0.0 Json.decodeFloat) (·.params)
      fun params d => { d with params },
    Json.field "qubits" (Json.decodeList 0 Json.decodeNat) (·.qubits)
      fun qubits d => { d with qubits },
    Json.field "clbits" (Json.decodeList 0 Json.decodeNat) (·.clbits)
      fun clbits d => { d with clbits } ]

/-- Reads an operation. -/
def decodeJson : Json.Decoder Draft := Json.decodeRecord jsonFields

end Draft

/-- The JSON value of an operation, if its parameters are finite. -/
def toJson? (op : Operation Float) : Option Json := do
  let params ← op.params.mapM Json.ofFloat?
  some (.object [("kind", .string op.kind.name), ("params", .array params),
    ("qubits", .ofNats op.qubits), ("clbits", .ofNats op.clbits)])

end Operation

namespace Circuit

/-- Why a text holds no circuit. -/
inductive ReadError where
  /-- The text is not JSON, or some value has the wrong type. -/
  | json
  /-- An operation has a fault. -/
  | fault (index : Nat) (fault : Fault)
  deriving Repr, DecidableEq

/-- The wording of a failed reading, as far as it names an operation. -/
def ReadError.message : ReadError → String
  | json => "malformed JSON"
  | fault index f => s!"operation {index}: {f.message}"

/-- A circuit that is being read. -/
structure Draft where
  numQubits : Nat := 0
  numClbits : Nat := 0
  ops : Json.Slots Operation.Draft := {}

/-- The members of a circuit. -/
def Draft.jsonFields : List (Json.Field Draft) :=
  [ Json.field "num_qubits" Json.decodeNat (·.numQubits)
      fun numQubits d => { d with numQubits },
    Json.field "num_clbits" Json.decodeNat (·.numClbits)
      fun numClbits d => { d with numClbits },
    Json.field "operations" (Json.decodeList {} Operation.Draft.decodeJson) (·.ops)
      fun ops d => { d with ops } ]

/-- The circuit of a JSON value. -/
def ofJson (v : Json) : Except ReadError (Circuit Float) :=
  match Json.decodeRecord Draft.jsonFields {} v with
  | none => .error .json
  | some draft =>
    match ofOperations draft.numQubits draft.numClbits (draft.ops.items.map (·.operation)) with
    | .ok c => .ok c
    | .error (index, fault) => .error (.fault index fault)

/-- The circuit of a JSON text. -/
def parse (text : String) : Except ReadError (Circuit Float) :=
  match Json.read? text with
  | none => .error .json
  | some v => ofJson v

/-- The JSON value of a circuit, if its parameters are finite. -/
def toJson? (c : Circuit Float) : Option Json := do
  let ops ← c.ops.mapM Operation.toJson?
  some (.object [("num_qubits", .ofNat c.numQubits), ("num_clbits", .ofNat c.numClbits),
    ("operations", .array ops)])

/-- The JSON text of a circuit, if its parameters are finite. -/
def render? (c : Circuit Float) : Option String := c.toJson?.map Json.compact

end Circuit

end QuantumCompiler
