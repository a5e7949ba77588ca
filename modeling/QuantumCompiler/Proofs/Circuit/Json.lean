import Mathlib.Data.List.Induction
import QuantumCompiler.Circuit.Json
import QuantumCompiler.Proofs.Access
import QuantumCompiler.Proofs.Json.Decode
import QuantumCompiler.Proofs.Json.RoundTrip
import QuantumCompiler.Proofs.WellFormed

/-!
# Circuits read back from their texts

* A circuit whose parameters are finite has a JSON value (`toJson?_eq`), which is
  printable and is decoded as the circuit again (`ofJson_json`).  What is assumed is
  that the text of each single parameter is read back (`ReadsBack`).
* Every circuit that is read is well formed and `Representable` (`of_ofJson`), so it
  can be written and read again.  Finite parameters and small widths are invariants of
  decoding, because fields that are given twice are decoded onto each other, and lists
  onto what longer ones have left behind.
* `parse_render` is the round trip in both senses.
-/

namespace QuantumCompiler

/-- A list is equal to itself if all its items are. -/
theorem beq_self_of_forall {β : Type} [BEq β] {xs : List β} (h : ∀ x ∈ xs, (x == x) = true) :
    (xs == xs) = true := by
  induction xs with
  | nil => rfl
  | cons x xs ih =>
    obtain ⟨hx, hxs⟩ := List.forall_mem_cons.mp h
    rw [List.cons_beq_cons, hx, ih hxs, Bool.and_self]

/-! ## Operations -/

namespace Operation

/-- The JSON value of an operation whose parameters are finite. -/
def json (op : Operation Float) : Json :=
  .object [("kind", .string op.kind.name),
    ("params", .array (op.params.map fun x => .number (Json.numberStyle.text x))),
    ("qubits", .ofNats op.qubits), ("clbits", .ofNats op.clbits)]

/-- The parameters are finite. -/
def Finite (op : Operation Float) : Prop := ∀ x ∈ op.params, Binary64.isFinite x = true

/-- Every parameter is read back from its text. -/
def ReadsBack (op : Operation Float) : Prop :=
  ∀ x ∈ op.params, Json.literalFloat? (Json.numberStyle.text x) = some x

variable {op : Operation Float}

theorem toJson?_eq (h : op.Finite) : op.toJson? = some op.json := by
  have hparams : op.params.mapM Json.ofFloat? =
      some (op.params.map fun x => .number (Json.numberStyle.text x)) :=
    Checked.mapM_eq fun x hx => by rw [Json.ofFloat?, h x hx]; rfl
  rw [toJson?, hparams]
  rfl

theorem printable_json (h : op.Finite) (depth : Nat) : Json.Printable (depth + 2) op.json := by
  refine .object ?_
  simp only [List.forall_mem_cons, List.not_mem_nil, false_implies, implies_true, and_true]
  refine ⟨.string _, .array fun v hv => ?_, .ofNats _, .ofNats _⟩
  obtain ⟨x, hx, rfl⟩ := List.mem_map.mp hv
  exact .number (Json.literal_text _ (h x hx))

theorem reads_json (hreads : op.ReadsBack) (hqubits : ∀ q ∈ op.qubits, q < Nat.pow 2 64)
    (hclbits : ∀ b ∈ op.clbits, b < Nat.pow 2 64) :
    Json.Reads Draft.decodeJson Draft.operation op.json op := by
  intro old
  have hread : ∀ x ∈ op.params, ∀ old,
      Json.decodeFloat old (.number (Json.numberStyle.text x)) = some x :=
    fun x hx _ => hreads x hx
  choose params hparams hparams_items using Json.decodeList_plain hread 0.0
  choose qubits hqubits hqubits_items using Json.decodeList_ofNats hqubits 0
  choose clbits hclbits hclbits_items using Json.decodeList_ofNats hclbits 0
  refine ⟨⟨op.kind, params old.params, qubits old.qubits, clbits old.clbits⟩, ?_, ?_⟩
  · rw [Draft.decodeJson, json, Json.decodeRecord, Draft.jsonFields,
      Json.decodeMembers_cons rfl (Json.field_update rfl),
      Json.decodeMembers_cons rfl (Json.field_update (hparams _)),
      Json.decodeMembers_cons rfl (Json.field_update (hqubits _)),
      Json.decodeMembers_cons rfl (Json.field_update (hclbits _))]
    simp [Json.decodeMembers, Kind.ofName_name]
  · rw [Draft.operation, hparams_items, hqubits_items, hclbits_items]

/-- All parameters are finite, also those that shorter lists have left behind. -/
def Draft.Finite (d : Draft) : Prop := ∀ x ∈ d.params.all, Binary64.isFinite x = true

theorem Draft.Finite.operation {d : Draft} (h : d.Finite) : d.operation.Finite :=
  fun x hx => h x (Json.Slots.mem_all_iff.mpr (.inl hx))

/-- Whatever is decoded onto finite parameters has finite parameters. -/
theorem Draft.finite_of_decodeJson {old new : Draft} {v : Json} (hold : old.Finite)
    (h : decodeJson old v = some new) : new.Finite := by
  refine Json.decodeRecord_induct (P := Draft.Finite) ?_ hold h
  simp only [jsonFields, List.forall_mem_cons, List.not_mem_nil, false_implies, implies_true,
    and_true, Json.field, Option.map_eq_some_iff]
  refine ⟨?_, ?_, ?_, ?_⟩
  · rintro s v _ hs ⟨name, -, rfl⟩
    exact hs
  · rintro s v _ hs ⟨params, hparams, rfl⟩
    exact Json.decodeList_forall (by decide) (fun _ _ _ => Json.decodeFloat_isFinite) hs hparams
  · rintro s v _ hs ⟨qubits, -, rfl⟩
    exact hs
  · rintro s v _ hs ⟨clbits, -, rfl⟩
    exact hs

theorem beq_self (h : op.Finite) : (op == op) = true := by
  have hparams : (op.params == op.params) = true :=
    beq_self_of_forall fun x hx => Binary64.beq_self (h x hx)
  cases op with | mk kind params qubits clbits =>
  show (kind == kind && (params == params && (qubits == qubits && clbits == clbits))) = true
  rw [hparams]
  simp

end Operation

/-! ## Circuits -/

namespace Circuit

/-- The JSON value of a circuit whose parameters are finite. -/
def json (c : Circuit Float) : Json :=
  .object [("num_qubits", .ofNat c.numQubits), ("num_clbits", .ofNat c.numClbits),
    ("operations", .array (c.ops.map (·.json)))]

/-- The widths and parameters of a circuit can be written and read: the widths as
unsigned integers of 64 bits, the parameters as decimals. -/
structure Representable (c : Circuit Float) : Prop where
  numQubits_lt : c.numQubits < Nat.pow 2 64
  numClbits_lt : c.numClbits < Nat.pow 2 64
  finite : ∀ op ∈ c.ops, op.Finite

variable {c : Circuit Float}

theorem toJson?_eq (h : ∀ op ∈ c.ops, op.Finite) : c.toJson? = some c.json := by
  have hops : c.ops.mapM Operation.toJson? = some (c.ops.map (·.json)) :=
    Checked.mapM_eq fun op hop => Operation.toJson?_eq (h op hop)
  rw [toJson?, hops]
  rfl

theorem printable_json (h : ∀ op ∈ c.ops, op.Finite) (depth : Nat) :
    Json.Printable (depth + 4) c.json := by
  refine .object ?_
  simp only [List.forall_mem_cons, List.not_mem_nil, false_implies, implies_true, and_true]
  refine ⟨.number (Json.literal_natText _), .number (Json.literal_natText _),
    .array fun v hv => ?_⟩
  obtain ⟨op, hop, rfl⟩ := List.mem_map.mp hv
  exact Operation.printable_json (h op hop) depth

theorem ofJson_json (hc : c.WellFormed) (hrepresentable : c.Representable)
    (hreads : ∀ op ∈ c.ops, op.ReadsBack) : ofJson c.json = .ok c := by
  obtain ⟨hqubits, hclbits, -⟩ := hrepresentable
  have hop : ∀ op ∈ c.ops, Json.Reads Operation.Draft.decodeJson Operation.Draft.operation
      op.json op := fun op hop =>
    Operation.reads_json (hreads op hop)
      (fun q hq => Nat.lt_trans ((hc op hop).qubits_lt q hq) hqubits)
      (fun b hb => Nat.lt_trans ((hc op hop).clbits_lt b hb) hclbits)
  choose ops hops hops_items using Json.decodeList_map hop {}
  have hdecode : Json.decodeRecord Draft.jsonFields {} c.json =
      some ⟨c.numQubits, c.numClbits, ops {}⟩ := by
    rw [json, Json.decodeRecord, Draft.jsonFields,
      Json.decodeMembers_cons rfl (Json.field_update (Json.decodeNat_ofNat hqubits _)),
      Json.decodeMembers_cons rfl (Json.field_update (Json.decodeNat_ofNat hclbits _)),
      Json.decodeMembers_cons rfl (Json.field_update (hops _))]
    rfl
  rw [ofJson, hdecode]
  simp only [hops_items, ofOperations_eq_ok_iff.mpr ⟨hc, rfl⟩]

theorem beq_self (h : ∀ op ∈ c.ops, op.Finite) : (c == c) = true := by
  have hops : (c.ops == c.ops) = true :=
    beq_self_of_forall fun op hop => Operation.beq_self (h op hop)
  cases c with | mk numQubits numClbits ops =>
  show (numQubits == numQubits && (numClbits == numClbits && ops == ops)) = true
  rw [hops]
  simp

/-- The text of a circuit is read as that circuit. -/
theorem exists_parse_render? (hc : c.WellFormed) (hrepresentable : c.Representable)
    (hreads : ∀ op ∈ c.ops, op.ReadsBack) :
    ∃ text, c.render? = some text ∧ parse text = .ok c := by
  have hfinite := hrepresentable.finite
  refine ⟨c.json.compact, ?_, ?_⟩
  · rw [render?, toJson?_eq hfinite, Option.map_some]
  · rw [parse, Json.read?_compact (printable_json hfinite 9996)]
    exact ofJson_json hc hrepresentable hreads

/-- The bounds on widths and parameters, also for what shorter lists have left behind. -/
structure Draft.Representable (d : Draft) : Prop where
  numQubits_lt : d.numQubits < Nat.pow 2 64
  numClbits_lt : d.numClbits < Nat.pow 2 64
  finite : ∀ op ∈ d.ops.all, op.Finite

theorem Draft.representable_of_decodeRecord {d : Draft} {v : Json}
    (h : Json.decodeRecord jsonFields {} v = some d) : d.Representable := by
  have hblank : ({} : Draft).Representable :=
    ⟨by decide, by decide, fun op hop => absurd hop Json.Slots.not_mem_all_empty⟩
  refine Json.decodeRecord_induct (P := Draft.Representable) ?_ hblank h
  simp only [jsonFields, List.forall_mem_cons, List.not_mem_nil, false_implies, implies_true,
    and_true, Json.field, Option.map_eq_some_iff]
  refine ⟨?_, ?_, ?_⟩
  · rintro s v _ hs ⟨n, hn, rfl⟩
    exact ⟨Json.decodeNat_lt hs.numQubits_lt hn, hs.numClbits_lt, hs.finite⟩
  · rintro s v _ hs ⟨n, hn, rfl⟩
    exact ⟨hs.numQubits_lt, Json.decodeNat_lt hs.numClbits_lt hn, hs.finite⟩
  · rintro s v _ hs ⟨ops, hops, rfl⟩
    have hfresh : ({} : Operation.Draft).Finite := fun x hx =>
      absurd hx Json.Slots.not_mem_all_empty
    refine ⟨hs.numQubits_lt, hs.numClbits_lt, ?_⟩
    exact Json.decodeList_forall hfresh (fun _ _ _ => Operation.Draft.finite_of_decodeJson)
      hs.finite hops

/-- What is read from a text are well-formed circuits within the bounds. -/
theorem of_ofJson {v : Json} (h : ofJson v = .ok c) : c.WellFormed ∧ c.Representable := by
  rw [ofJson] at h
  split at h
  · cases h
  · next draft hdraft =>
    have hrepresentable := Draft.representable_of_decodeRecord hdraft
    split at h
    · next hc =>
      cases h
      obtain ⟨hops, rfl⟩ := ofOperations_eq_ok_iff.mp hc
      refine ⟨hops, hrepresentable.numQubits_lt, hrepresentable.numClbits_lt, fun op hop => ?_⟩
      obtain ⟨d, hd, rfl⟩ := List.mem_map.mp hop
      exact (hrepresentable.finite d (Json.Slots.mem_all_iff.mpr (.inl hd))).operation
    · cases h

/-! ## Where circuits come from -/

/-- Circuits are built operation by operation, or read. -/
inductive Obtained : Circuit Float → Prop where
  | empty (numQubits numClbits : Nat) : Obtained { numQubits, numClbits }
  | add {c c' : Circuit Float} {op : Operation Float} (h : Obtained c)
      (hadd : c.add op = .ok c') :
      Obtained c'
  | read {v : Json} {c : Circuit Float} (h : Circuit.ofJson v = .ok c) : Obtained c

/-- The circuits that can be obtained are the well-formed ones. -/
theorem obtained_iff {c : Circuit Float} : c.Obtained ↔ c.WellFormed := by
  constructor
  · intro h
    induction h with
    | empty => exact fun _ hop => absurd hop List.not_mem_nil
    | @add c c' op _ hadd ih =>
      obtain ⟨hop, rfl⟩ := Circuit.add_eq_ok_iff.mp hadd
      intro o ho
      rcases List.mem_append.mp ho with ho | ho
      · exact ih o ho
      · rw [List.mem_singleton.mp ho]
        exact hop
    | read h => exact (of_ofJson h).1
  · obtain ⟨n, m, ops⟩ := c
    intro hc
    -- The last operation is the one that was added last.
    induction ops using List.reverseRecOn with
    | nil => exact .empty n m
    | append_singleton ops op ih =>
      have hops : ∀ o ∈ ops, o.WellFormed n m := fun o ho => hc o (List.mem_append_left _ ho)
      have hop : op.WellFormed n m := hc op (List.mem_append_right _ List.mem_cons_self)
      exact .add (ih hops) (Circuit.add_eq_ok_iff.mpr ⟨hop, rfl⟩)

/-! ## The round trip -/

/-- Every parameter is read back from its text. -/
def ReadsBack (c : Circuit Float) : Prop := ∀ op ∈ c.ops, op.ReadsBack

/-- The text of a circuit is read as that circuit, which is equal to itself: a
parameter that is not a number would not be. -/
def RoundTrips (c : Circuit Float) : Prop :=
  ∃ text, c.render? = some text ∧ parse text = .ok c ∧ (c == c) = true

theorem roundTrips (hc : c.WellFormed) (hrepresentable : c.Representable) (hreads : c.ReadsBack) :
    c.RoundTrips := by
  obtain ⟨text, hrender, hparse⟩ := exists_parse_render? hc hrepresentable hreads
  exact ⟨text, hrender, hparse, beq_self hrepresentable.finite⟩

/-- Circuits that were built or read come back from their texts, as far as single
numbers do.  Only circuits that obey all rules are read, and they come back too. -/
theorem parse_render :
    (∀ c : Circuit Float, c.Obtained → c.Representable → c.ReadsBack → c.RoundTrips) ∧
      ∀ (text : String) (c : Circuit Float), parse text = .ok c →
        (∀ op ∈ c.ops, op.Regular c.numQubits c.numClbits) ∧ (c.ReadsBack → c.RoundTrips) := by
  refine ⟨fun c hc => roundTrips (obtained_iff.mp hc), fun text c h => ?_⟩
  rw [parse] at h
  cases hread : Json.read? text with
  | none =>
    rw [hread] at h
    cases h
  | some v =>
    rw [hread] at h
    obtain ⟨hc, hrepresentable⟩ := of_ofJson h
    exact ⟨fun op hop => (hc op hop).regular, roundTrips hc hrepresentable⟩

/-- A small angle, a large one, and a kind whose name needs escapes. -/
def annotatedCircuit : Circuit Float :=
  ⟨2, 1,
    [.ofGate .rz [-1e-7] [0],
      { kind := Kind.ofName "<\"tag\">\n", params := [0.5, 3e21], qubits := [1, 0],
        clbits := [0] }, .measure 1 0]⟩

theorem parse_render_annotatedCircuit :
    ∃ text, annotatedCircuit.render? = some text ∧ parse text = .ok annotatedCircuit ∧
      ∀ op ∈ annotatedCircuit.ops, op.Regular 2 1 := by
  have hc : annotatedCircuit.WellFormed := by
    unfold WellFormed
    decide +kernel
  have hrepresentable : annotatedCircuit.Representable := by
    refine ⟨by decide, by decide, ?_⟩
    unfold Operation.Finite
    decide +kernel
  have hreads : annotatedCircuit.ReadsBack := by
    unfold ReadsBack Operation.ReadsBack
    decide +kernel
  obtain ⟨text, hrender, hparse, -⟩ :=
    parse_render.1 annotatedCircuit (obtained_iff.mpr hc) hrepresentable hreads
  exact ⟨text, hrender, hparse, (parse_render.2 text annotatedCircuit hparse).1⟩

end Circuit

end QuantumCompiler
