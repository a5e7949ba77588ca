import Mathlib.Data.List.Nodup
import QuantumCompiler.Circuit.Basic

/-!
# Well-formed operations and circuits

`Operation.fault?` is a chain of checks.  This module says once what it means
that none of them fires (`Operation.wellFormed_iff`), so that no later proof
opens the chain again.

* The shape of an operation depends on its kind and on the numbers of its
  parameters, qubits and classical bits only (`shapeFault?_congr`).
* Renaming the qubits of an operation by an injective map keeps it well
  formed (`Operation.WellFormed.mapQubits`).
* `Circuit.ofOperations` succeeds exactly on well-formed operations
  (`ofOperations_eq_ok_iff`).
-/

namespace QuantumCompiler

variable {α : Type}

namespace Gate

theorem ne_barrier_of_isUnitary {g : Gate} (h : g.isUnitary = true) : g ≠ .barrier := by
  rintro rfl
  cases h

theorem numClbits_of_isUnitary {g : Gate} (h : g.isUnitary = true) : g.numClbits = 0 := by
  cases g <;> first | rfl | cases h

/-- A unitary gate acts on one, two or three qubits. -/
theorem numQubits_of_isUnitary {g : Gate} (h : g.isUnitary = true) :
    g.numQubits = 1 ∨ g.numQubits = 2 ∨ g.numQubits = 3 := by
  cases g <;> first | decide | cases h

theorem numQubits_pos_of_isUnitary {g : Gate} (h : g.isUnitary = true) : 0 < g.numQubits := by
  have := numQubits_of_isUnitary h
  omega

end Gate

namespace Operation

/-! ## Unitary operations -/

theorem isUnitary_of_kind {op : Operation α} {g : Gate} (hkind : op.kind = .gate g)
    (h : g.isUnitary = true) : op.isUnitary = true := by
  simp [isUnitary, hkind, Kind.gate?, h]

theorem exists_gate_of_isUnitary {op : Operation α} (h : op.isUnitary = true) :
    ∃ g, op.kind = .gate g ∧ g.isUnitary = true := by
  cases hkind : op.kind with
  | custom name novel => simp [isUnitary, hkind, Kind.gate?] at h
  | gate g => exact ⟨g, rfl, by simpa [isUnitary, hkind, Kind.gate?] using h⟩

theorem kind_ne_of_isUnitary {op : Operation α} {g : Gate} (h : op.isUnitary = true)
    (hg : g.isUnitary = false) : op.kind ≠ .gate g := by
  intro hkind
  simp [isUnitary, hkind, Kind.gate?, hg] at h

theorem isBarrier_of_isUnitary {op : Operation α} (h : op.isUnitary = true) :
    op.isBarrier = false := by
  simpa [isBarrier] using kind_ne_of_isUnitary h (g := .barrier) rfl

theorem isShuttle_of_isUnitary {op : Operation α} (h : op.isUnitary = true) :
    op.isShuttle = false := by
  simpa [isShuttle] using kind_ne_of_isUnitary h (g := .shuttle) rfl

/-! ## The checks on operands -/

/-- The scan over the qubits finds nothing exactly when they are in range,
distinct, and not among those already seen. -/
theorem qubitFault?_eq_none_iff {kind : String} {width : Nat} {seen qs : List Nat} :
    qubitFault? kind width seen qs = none ↔
      (∀ q ∈ qs, q < width) ∧ qs.Nodup ∧ ∀ q ∈ qs, q ∉ seen := by
  induction qs generalizing seen with
  | nil => simp [qubitFault?]
  | cons q rest ih =>
    rw [qubitFault?]
    split_ifs with hwidth hseen
    · have : ¬ q < width := by omega
      simp [this]
    · have : q ∈ seen := by simpa using hseen
      simp [this]
    · have hq : q < width := by omega
      have hnew : q ∉ seen := by simpa using hseen
      rw [ih]
      constructor
      · rintro ⟨hlt, hnodup, hdisj⟩
        refine ⟨?_, ?_, ?_⟩
        · simpa [hq] using hlt
        · refine List.nodup_cons.mpr ⟨fun hmem => ?_, hnodup⟩
          exact hdisj q hmem List.mem_cons_self
        · intro p hp
          rcases List.mem_cons.mp hp with rfl | hp
          · exact hnew
          · exact fun h => hdisj p hp (List.mem_cons_of_mem _ h)
      · rintro ⟨hlt, hnodup, hdisj⟩
        obtain ⟨hqrest, hrest⟩ := List.nodup_cons.mp hnodup
        refine ⟨fun p hp => hlt p (List.mem_cons_of_mem _ hp), hrest, ?_⟩
        intro p hp hmem
        rcases List.mem_cons.mp hmem with rfl | hmem
        · exact hqrest hp
        · exact hdisj p (List.mem_cons_of_mem _ hp) hmem

/-- What a well-formed operation is: it has a name, its qubits are in range
and distinct, its classical bits are in range, and its shape fits its kind. -/
theorem wellFormed_iff {n m : Nat} {op : Operation α} :
    op.WellFormed n m ↔
      op.kind.name ≠ "" ∧ (∀ q ∈ op.qubits, q < n) ∧ op.qubits.Nodup ∧
        (∀ c ∈ op.clbits, c < m) ∧ op.shapeFault? = none := by
  have hqubits : qubitFault? op.kind.name n [] op.qubits = none ↔ _ := qubitFault?_eq_none_iff
  have hclbits : op.clbits.find? (m ≤ ·) = none ↔ ∀ c ∈ op.clbits, c < m := by
    simp
  rw [WellFormed, fault?]
  split_ifs with hname
  · have : op.kind.name = "" := by simpa using hname
    simp [this]
  · have hne : op.kind.name ≠ "" := by simpa using hname
    split
    · next h =>
      rw [h] at hqubits
      constructor
      · intro hfault; cases hfault
      · rintro ⟨-, hlt, hnodup, -⟩
        cases hqubits.mpr ⟨hlt, hnodup, by simp⟩
    · next h =>
      obtain ⟨hlt, hnodup, -⟩ := hqubits.mp h
      split
      · next hfind =>
        rw [hfind] at hclbits
        constructor
        · intro hfault; cases hfault
        · rintro ⟨-, -, -, hlt', -⟩
          cases hclbits.mpr hlt'
      · next hfind =>
        have hlt' := hclbits.mp hfind
        exact ⟨fun hshape => ⟨hne, hlt, hnodup, hlt', hshape⟩, fun h => h.2.2.2.2⟩

namespace WellFormed

variable {n m : Nat} {op : Operation α}

theorem qubits_lt (h : op.WellFormed n m) : ∀ q ∈ op.qubits, q < n := (wellFormed_iff.mp h).2.1

theorem nodup (h : op.WellFormed n m) : op.qubits.Nodup := (wellFormed_iff.mp h).2.2.1

theorem clbits_lt (h : op.WellFormed n m) : ∀ c ∈ op.clbits, c < m :=
  (wellFormed_iff.mp h).2.2.2.1

theorem shape (h : op.WellFormed n m) : op.shapeFault? = none := (wellFormed_iff.mp h).2.2.2.2

end WellFormed

/-! ## Shapes -/

/-- The shape depends on the kind and on the numbers of operands only. -/
theorem shapeFault?_congr {a b : Operation α} (hkind : a.kind = b.kind)
    (hparams : a.params.length = b.params.length) (hqubits : a.qubits.length = b.qubits.length)
    (hclbits : a.clbits.length = b.clbits.length) : a.shapeFault? = b.shapeFault? := by
  have isEmpty_congr {β : Type} {xs ys : List β} (h : xs.length = ys.length) :
      xs.isEmpty = ys.isEmpty := by
    cases xs <;> cases ys <;> simp_all
  unfold shapeFault?
  rw [hkind, isEmpty_congr hqubits, isEmpty_congr hparams, isEmpty_congr hclbits, hparams,
    hqubits, hclbits]

/-- A standard operation that is no barrier has a fitting shape exactly when
the numbers of its operands are those of its kind. -/
theorem shapeFault?_gate {op : Operation α} {g : Gate} (hkind : op.kind = .gate g)
    (hbarrier : g ≠ .barrier) :
    op.shapeFault? = none ↔
      op.qubits.length = g.numQubits ∧ op.params.length = g.numParams ∧
        op.clbits.length = g.numClbits := by
  unfold shapeFault?
  rw [hkind]
  split
  · next h => cases h
  · next h => cases h; exact absurd rfl hbarrier
  · next g' _ h =>
    cases h
    split_ifs with hq hp hc <;> simp_all

theorem shapeFault?_barrier {op : Operation α} (hkind : op.kind = .gate .barrier) :
    op.shapeFault? = none ↔ op.params = [] ∧ op.clbits = [] := by
  simp [shapeFault?, hkind]

theorem shapeFault?_custom {op : Operation α} {name : String} {novel : Gate.ofName? name = none}
    (hkind : op.kind = .custom name novel) : op.shapeFault? = none ↔ op.qubits ≠ [] := by
  simp [shapeFault?, hkind]

/-- What a circuit with given widths asks of an operation, kind by kind. -/
structure Regular (n m : Nat) (op : Operation α) : Prop where
  named : op.kind.name ≠ ""
  qubits_lt : ∀ q ∈ op.qubits, q < n
  distinct : op.qubits.Nodup
  clbits_lt : ∀ c ∈ op.clbits, c < m
  standard : ∀ g, op.kind = .gate g → g ≠ .barrier →
    op.qubits.length = g.numQubits ∧ op.params.length = g.numParams ∧
    op.clbits.length = g.numClbits
  barrier : op.kind = .gate .barrier → op.params = [] ∧ op.clbits = []
  custom : op.kind.gate? = none → op.qubits ≠ []

theorem WellFormed.regular {n m : Nat} {op : Operation α} (h : op.WellFormed n m) :
    op.Regular n m := by
  obtain ⟨hname, hqubits, hnodup, hclbits, hshape⟩ := wellFormed_iff.mp h
  refine ⟨hname, hqubits, hnodup, hclbits, ?_, ?_, ?_⟩
  · exact fun g hkind hbarrier => (shapeFault?_gate hkind hbarrier).mp hshape
  · exact fun hkind => (shapeFault?_barrier hkind).mp hshape
  · intro hnone
    cases hkind : op.kind with
    | gate g => rw [hkind] at hnone; cases hnone
    | custom name novel => exact (shapeFault?_custom hkind).mp hshape

/-- A well-formed shuttle moves one qubit and names both zones. -/
theorem WellFormed.shuttle_shape [RealArith α] {n m : Nat} {op : Operation α}
    (h : op.WellFormed n m) (hshuttle : op.isShuttle = true) :
    ∃ q ends, op.qubits = [q] ∧ op.zones? = some ends := by
  have hkind : op.kind = .gate .shuttle := by simpa [isShuttle] using hshuttle
  obtain ⟨hqubits, hparams, -⟩ := (shapeFault?_gate hkind (by decide)).mp h.shape
  obtain ⟨q, hq⟩ := List.length_eq_one_iff.mp hqubits
  obtain ⟨source, target, hends⟩ := List.length_eq_two.mp hparams
  exact ⟨q, _, hq, by rw [zones?, hends]⟩

/-- A well-formed unitary gate acts on some qubit. -/
theorem WellFormed.qubits_ne_nil {n m : Nat} {op : Operation α} (h : op.WellFormed n m)
    (hunitary : op.isUnitary = true) : op.qubits ≠ [] := by
  intro hnil
  obtain ⟨g, hkind, hg⟩ := exists_gate_of_isUnitary hunitary
  have hlength := ((shapeFault?_gate hkind (Gate.ne_barrier_of_isUnitary hg)).mp h.shape).1
  rw [hnil, List.length_nil] at hlength
  exact Nat.ne_of_lt (Gate.numQubits_pos_of_isUnitary hg) hlength

/-- A well-formed unitary gate has no classical bits. -/
theorem WellFormed.clbits_eq_nil {n m : Nat} {op : Operation α} (h : op.WellFormed n m)
    (hunitary : op.isUnitary = true) : op.clbits = [] := by
  obtain ⟨g, hkind, hg⟩ := exists_gate_of_isUnitary hunitary
  have hlength := ((shapeFault?_gate hkind (Gate.ne_barrier_of_isUnitary hg)).mp h.shape).2.2
  exact List.eq_nil_of_length_eq_zero (hlength.trans (Gate.numClbits_of_isUnitary hg))

/-- The qubits of a well-formed operation can be exchanged for as many other
ones. -/
theorem WellFormed.withQubits {n n' m : Nat} {op : Operation α} (h : op.WellFormed n m)
    {qs : List Nat} (hlength : qs.length = op.qubits.length) (hlt : ∀ q ∈ qs, q < n')
    (hnodup : qs.Nodup) : (op.withQubits qs).WellFormed n' m := by
  obtain ⟨hname, -, -, hclbits, hshape⟩ := wellFormed_iff.mp h
  refine wellFormed_iff.mpr ⟨hname, hlt, hnodup, hclbits, ?_⟩
  rw [← hshape]
  exact shapeFault?_congr rfl rfl hlength rfl

/-- An injective renaming of qubits keeps an operation well formed. -/
theorem WellFormed.mapQubits {n n' m : Nat} {op : Operation α} (h : op.WellFormed n m)
    {f : Nat → Nat} (hlt : ∀ q ∈ op.qubits, f q < n')
    (hinj : ∀ p ∈ op.qubits, ∀ q ∈ op.qubits, f p = f q → p = q) :
    (op.mapQubits f).WellFormed n' m := by
  refine h.withQubits (by simp) ?_ ?_
  · intro q hq
    obtain ⟨p, hp, rfl⟩ := List.mem_map.mp hq
    exact hlt p hp
  · exact List.Nodup.map_on hinj h.nodup

@[simp] theorem mapQubits_kind (f : Nat → Nat) (op : Operation α) :
    (op.mapQubits f).kind = op.kind := rfl

@[simp] theorem mapQubits_qubits (f : Nat → Nat) (op : Operation α) :
    (op.mapQubits f).qubits = op.qubits.map f := rfl

theorem mapQubits_mapQubits (f g : Nat → Nat) (op : Operation α) :
    (op.mapQubits f).mapQubits g = op.mapQubits (g ∘ f) := by
  simp [mapQubits, withQubits]

/-- Renamings that agree on the qubits of an operation give the same
operation. -/
theorem mapQubits_congr {f g : Nat → Nat} {op : Operation α} (h : ∀ q ∈ op.qubits, f q = g q) :
    op.mapQubits f = op.mapQubits g := by
  have : op.qubits.map f = op.qubits.map g := List.map_congr_left h
  simp [mapQubits, withQubits, this]

/-- An operation of a standard unitary kind is well formed as soon as its
operands are. -/
theorem wellFormed_ofGate {n m : Nat} {g : Gate} {params : List α} {qubits : List Nat}
    (hbarrier : g ≠ .barrier) (hclbits : g.numClbits = 0) (hparams : params.length = g.numParams)
    (hlength : qubits.length = g.numQubits) (hlt : ∀ q ∈ qubits, q < n) (hnodup : qubits.Nodup) :
    (ofGate g params qubits).WellFormed n m := by
  refine wellFormed_iff.mpr ⟨?_, hlt, hnodup, ?_, ?_⟩
  · show g.name ≠ ""
    cases g <;> decide
  · intro c hc
    cases hc
  · exact (shapeFault?_gate rfl hbarrier).mpr ⟨hlength, hparams, hclbits.symm⟩

end Operation

/-! ## Circuits -/

namespace Circuit

theorem firstFault?_eq_none_iff {n m i : Nat} {ops : List (Operation α)} :
    firstFault? n m i ops = none ↔ ∀ op ∈ ops, op.WellFormed n m := by
  induction ops generalizing i with
  | nil => simp [firstFault?]
  | cons op rest ih =>
    rw [firstFault?]
    cases hfault : op.fault? n m with
    | some fault => simp [Operation.WellFormed, hfault]
    | none => simp [ih, Operation.WellFormed, hfault]

/-- A circuit is built exactly from well-formed operations, which it keeps. -/
theorem ofOperations_eq_ok_iff {n m : Nat} {ops : List (Operation α)} {c : Circuit α} :
    ofOperations n m ops = .ok c ↔ (∀ op ∈ ops, op.WellFormed n m) ∧ c = ⟨n, m, ops⟩ := by
  rw [ofOperations, ← firstFault?_eq_none_iff (i := 0)]
  cases h : firstFault? n m 0 ops with
  | some fault => simp
  | none => simp [eq_comm]

/-- An operation is added exactly if it is well formed. -/
theorem add_eq_ok_iff {c c' : Circuit α} {op : Operation α} :
    c.add op = .ok c' ↔
      op.WellFormed c.numQubits c.numClbits ∧ c' = { c with ops := c.ops ++ [op] } := by
  rw [add, Operation.WellFormed]
  cases op.fault? c.numQubits c.numClbits with
  | some fault => simp
  | none => simp [eq_comm]

end Circuit

end QuantumCompiler
