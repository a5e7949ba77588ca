import Mathlib.Tactic.IntervalCases
import QuantumCompiler.Circuit.Unitary
import QuantumCompiler.Proofs.Numeric.Complex
import QuantumCompiler.Proofs.Operator.Wire
import QuantumCompiler.Proofs.WellFormed

/-!
# Gates as operators

On the real line a unitary gate is an operator on the register of its circuit:
the matrix of the gate acts on the bits of its qubits, the first one the most
significant, and leaves all other bits as they are.  The two gates on three
qubits have the usual permutation matrices.

The operator of a gate is a matrix of blocks along its first qubit
(`embed_cons`), and the blocks are operators on the others.  A controlled gate
has the identity and its target gate as blocks (`operator_controlled`).
-/

namespace QuantumCompiler

variable {n : Nat}

namespace Basis

/-- The bit of a wire. -/
def bit (x : Basis n) (q : Nat) : Fin 2 := if h : q < n then x ⟨q, h⟩ else ⟨0, Nat.zero_lt_two⟩

@[simp] theorem bit_val (x : Basis n) (q : Fin n) : x.bit q = x q := by
  rw [bit, dif_pos q.isLt]

/-- The number that the bits of some wires spell, the first one the most
significant. -/
def number (x : Basis n) : List Nat → Nat
  | [] => 0
  | q :: qs => x.bit q * 2 ^ qs.length + x.number qs

theorem number_lt (x : Basis n) (qs : List Nat) : x.number qs < 2 ^ qs.length := by
  induction qs with
  | nil => exact Nat.one_pos
  | cons q rest ih =>
    have hbit : (x.bit q : Nat) ≤ 1 := Nat.le_of_lt_succ (x.bit q).isLt
    rw [number, List.length_cons, pow_succ]
    have hle := Nat.mul_le_mul_right (2 ^ rest.length) hbit
    omega

/-- The number determines the bits. -/
theorem bit_eq_of_number_eq {x y : Basis n} {qs : List Nat} (h : x.number qs = y.number qs) :
    ∀ q ∈ qs, x.bit q = y.bit q := by
  induction qs with
  | nil => simp
  | cons q rest ih =>
    have hx := x.number_lt rest
    have hy := y.number_lt rest
    rw [number, number] at h
    have hbit : x.bit q = y.bit q := by
      generalize x.bit q = b at h ⊢
      generalize y.bit q = c at h ⊢
      fin_cases b <;> fin_cases c <;> simp at h ⊢ <;> omega
    rw [hbit] at h
    exact List.forall_mem_cons.mpr ⟨hbit, ih (Nat.add_left_cancel h)⟩

/-- Changing the bit of another wire keeps the number. -/
theorem number_update (x : Basis n) {q : Fin n} {qs : List Nat} (h : (q : Nat) ∉ qs) (b : Fin 2) :
    number (Function.update x q b) qs = x.number qs := by
  induction qs with
  | nil => rfl
  | cons p rest ih =>
    rw [List.mem_cons, not_or] at h
    obtain ⟨hp, hrest⟩ := h
    have hbit : bit (Function.update x q b) p = x.bit p := by
      rw [bit, bit]
      split_ifs with hlt
      · rw [Function.update_of_ne]
        exact fun heq => hp (congrArg Fin.val heq).symm
      · rfl
    rw [number, number, hbit, ih hrest]

end Basis

namespace Operator

/-- The operator that acts with given entries on the bits of some wires. -/
def embed (n : Nat) (f : Nat → Nat → ℂ) (qs : List Nat) : Operator n :=
  .of fun x y =>
    if ∀ p : Fin n, (p : Nat) ∉ qs → x p = y p then f (x.number qs) (y.number qs) else 0

theorem embed_apply (f : Nat → Nat → ℂ) (qs : List Nat) (x y : Basis n) :
    embed n f qs x y =
      if ∀ p : Fin n, (p : Nat) ∉ qs → x p = y p then f (x.number qs) (y.number qs) else 0 := rfl

/-- Only entries of the right size matter. -/
theorem embed_congr {f g : Nat → Nat → ℂ} {qs : List Nat}
    (h : ∀ r < 2 ^ qs.length, ∀ c < 2 ^ qs.length, f r c = g r c) :
    embed n f qs = embed n g qs := by
  ext x y
  rw [embed_apply, embed_apply, h _ (x.number_lt qs) _ (y.number_lt qs)]

/-- Along its first wire, an operator has the blocks of its entries. -/
theorem embed_cons (f : Nat → Nat → ℂ) {q : Fin n} {qs : List Nat} (hq : (q : Nat) ∉ qs) :
    embed n f (q :: qs) = blocks q
      !![embed n f qs, embed n (fun r c => f r (2 ^ qs.length + c)) qs;
        embed n (fun r c => f (2 ^ qs.length + r) c) qs,
        embed n (fun r c => f (2 ^ qs.length + r) (2 ^ qs.length + c)) qs] := by
  have hblocks : embed n f (q :: qs) = blocks q (.of fun i j => embed n
      (fun r c => f (i * 2 ^ qs.length + r) (j * 2 ^ qs.length + c)) qs) := by
    ext x y
    rw [blocks_apply, Finset.sum_eq_single (y q)]
    · have hagree : (∀ p : Fin n, (p : Nat) ∉ qs → Function.update x q (y q) p = y p) ↔
          ∀ p : Fin n, (p : Nat) ∉ (q : Nat) :: qs → x p = y p := by
        refine forall_congr' fun p => ?_
        by_cases hp : p = q
        · simp [hp]
        · have hval : (p : Nat) ≠ q := fun h => hp (Fin.ext h)
          rw [Function.update_of_ne hp, List.mem_cons, not_or]
          simp [hval]
      simp only [Matrix.of_apply, embed_apply, hagree, Basis.number, Basis.bit_val,
        Basis.number_update x hq]
    · intro j _ hj
      have hdiffer : ¬ ∀ p : Fin n, (p : Nat) ∉ qs → Function.update x q j p = y p := by
        intro h
        exact hj (by simpa using h q hq)
      rw [Matrix.of_apply, embed_apply, if_neg hdiffer]
    · simp
  rw [hblocks, Matrix.eta_fin_two (.of _)]
  simp only [Matrix.of_apply, Fin.val_zero, Fin.val_one, zero_mul, zero_add, one_mul]

/-- Entries on one wire. -/
theorem embed_singleton (f : Nat → Nat → ℂ) (q : Fin n) :
    embed n f [(q : Nat)] = onWire q (.of fun i j => f i j) := by
  ext x y
  have hagree : (∀ p : Fin n, (p : Nat) ∉ [(q : Nat)] → x p = y p) ↔ ∀ p, p ≠ q → x p = y p := by
    simp only [List.mem_singleton, Fin.val_inj, ne_eq]
  simp only [embed_apply, onWire_apply, hagree, Basis.number, Basis.bit_val, Matrix.of_apply,
    List.length_nil, pow_zero, mul_one, add_zero]

/-- The identity on some wires. -/
theorem embed_one (qs : List Nat) : embed n (fun r c => if r = c then 1 else 0) qs = 1 := by
  ext x y
  rw [embed_apply, Matrix.one_apply]
  by_cases hxy : x = y
  · simp [hxy]
  · rw [if_neg hxy]
    split_ifs with hagree hnumber
    · refine absurd (funext fun p => ?_) hxy
      by_cases hp : (p : Nat) ∈ qs
      · simpa using Basis.bit_eq_of_number_eq hnumber p hp
      · exact hagree p hp
    · rfl
    · rfl

theorem embed_zero (qs : List Nat) : embed n (fun _ _ => 0) qs = 0 := by
  ext x y
  simp [embed_apply]

theorem embed_nil (f : Nat → Nat → ℂ) : embed n f [] = f 0 0 • 1 := by
  ext x y
  simp [embed_apply, Basis.number, Matrix.one_apply, funext_iff]

/-- Other wires are left alone. -/
theorem embed_mem_away (f : Nat → Nat → ℂ) {q : Fin n} {ws : List (Fin n)} (hnodup : ws.Nodup)
    (hq : q ∉ ws) : embed n f (ws.map Fin.val) ∈ away q := by
  induction ws generalizing f with
  | nil =>
    rw [List.map_nil, embed_nil]
    exact Subalgebra.smul_mem _ (one_mem _) _
  | cons p ws ih =>
    rw [List.nodup_cons] at hnodup
    rw [List.mem_cons, not_or] at hq
    rw [List.map_cons, embed_cons f (by simpa [Fin.val_inj] using hnodup.1)]
    refine blocks_mem_away (Ne.symm hq.1) fun i j => ?_
    have hblock (f : Nat → Nat → ℂ) := ih f hnodup.2 hq.2
    fin_cases i <;> fin_cases j <;> simp [hblock]

/-- Entries that are symmetric in two bits act in the same way on two wires and
on the wires exchanged. -/
theorem embed_comm {f : Nat → Nat → ℂ}
    (h : ∀ i j k l : Fin 2, f (2 * i + j) (2 * k + l) = f (2 * j + i) (2 * l + k)) (p q : Nat) :
    embed n f [p, q] = embed n f [q, p] := by
  ext x y
  have hmem (k : Nat) : k ∉ [p, q] ↔ k ∉ [q, p] := by simp [and_comm]
  have hnumber (z : Basis n) (r s : Nat) : z.number [r, s] = 2 * z.bit r + z.bit s := by
    simp [Basis.number, mul_comm]
  simp only [embed_apply, hmem, hnumber, h]

end Operator

namespace GateMatrix

/-- The matrix that exchanges two basis states. -/
noncomputable def exchange (size p q : Nat) : GateMatrix ℝ :=
  ofFn size fun row column =>
    if Equiv.swap p q column = row then Amplitude.one else Amplitude.zero

end GateMatrix

namespace Operation

open Operator

/-- The matrix of a unitary gate. -/
noncomputable def matrix (op : Operation ℝ) : GateMatrix ℝ :=
  match op.kind with
  | .gate .ccx => .exchange 8 6 7
  | .gate .cswap => .exchange 8 5 6
  | _ => op.unitary?.getD []

/-- The entries of the matrix of a unitary gate. -/
noncomputable def entry (op : Operation ℝ) (row column : Nat) : ℂ :=
  (op.matrix.entry row column).toComplex

/-- A unitary gate as an operator on a register. -/
noncomputable def operator (n : Nat) (op : Operation ℝ) : Operator n := embed n op.entry op.qubits

/-- What a sequence of unitary gates does to a register. -/
noncomputable def evolution (n : Nat) (ops : List (Operation ℝ)) : Operator n :=
  (ops.map (operator n)).reverse.prod

@[simp] theorem evolution_nil : evolution n [] = 1 := rfl

@[simp] theorem evolution_cons (op : Operation ℝ) (ops : List (Operation ℝ)) :
    evolution n (op :: ops) = evolution n ops * operator n op := by
  simp [evolution]

/-- Only the kind, the parameters and the qubits of a gate matter. -/
theorem operator_eq_ofGate {op : Operation ℝ} {g : Gate} (h : op.kind = .gate g) :
    op.operator n = (ofGate g op.params op.qubits).operator n := by
  obtain ⟨kind, params, qubits, clbits⟩ := op
  cases h
  rfl

/-! ## Wires of a gate -/

/-- The qubits of a well-formed operation are distinct wires of the register. -/
theorem WellFormed.exists_wires {m : Nat} {op : Operation ℝ} (h : op.WellFormed n m) :
    ∃ ws : List (Fin n), op.qubits = ws.map Fin.val ∧ ws.Nodup := by
  refine ⟨op.qubits.pmap Fin.mk h.qubits_lt, ?_, ?_⟩
  · rw [List.map_pmap, List.pmap_eq_map, List.map_id']
  · exact h.nodup.pmap fun a ha b hb hab => congrArg Fin.val hab

/-- A well-formed gate has as many wires as its kind asks for. -/
theorem WellFormed.exists_wires_of_kind {m : Nat} {op : Operation ℝ} (h : op.WellFormed n m)
    {g : Gate} (hkind : op.kind = .gate g) (hg : g.isUnitary = true) :
    ∃ ws : List (Fin n), op.qubits = ws.map Fin.val ∧ ws.Nodup ∧ ws.length = g.numQubits := by
  obtain ⟨ws, hws, hnodup⟩ := h.exists_wires
  have hlength := ((shapeFault?_gate hkind (Gate.ne_barrier_of_isUnitary hg)).mp h.shape).1
  exact ⟨ws, hws, hnodup, by rw [← hlength, hws, List.length_map]⟩

theorem WellFormed.exists_wire {m : Nat} {op : Operation ℝ} (h : op.WellFormed n m)
    (hlength : op.qubits.length = 1) : ∃ q : Fin n, op.qubits = [(q : Nat)] := by
  obtain ⟨wires, hwires, -⟩ := h.exists_wires
  rw [hwires, List.length_map, List.length_eq_one_iff] at hlength
  obtain ⟨q, rfl⟩ := hlength
  exact ⟨q, hwires⟩

theorem WellFormed.exists_pair {m : Nat} {op : Operation ℝ} (h : op.WellFormed n m)
    (hlength : op.qubits.length = 2) :
    ∃ p q : Fin n, p ≠ q ∧ op.qubits = [(p : Nat), (q : Nat)] := by
  obtain ⟨wires, hwires, hnodup⟩ := h.exists_wires
  rw [hwires, List.length_map, List.length_eq_two] at hlength
  obtain ⟨p, q, rfl⟩ := hlength
  exact ⟨p, q, by simpa using hnodup, hwires⟩

theorem WellFormed.exists_triple {m : Nat} {op : Operation ℝ} (h : op.WellFormed n m)
    (hlength : op.qubits.length = 3) :
    ∃ p q r : Fin n, (p ≠ q ∧ p ≠ r ∧ q ≠ r) ∧ op.qubits = [(p : Nat), (q : Nat), (r : Nat)] := by
  obtain ⟨wires, hwires, hnodup⟩ := h.exists_wires
  rw [hwires, List.length_map, List.length_eq_three] at hlength
  obtain ⟨p, q, r, rfl⟩ := hlength
  exact ⟨p, q, r, by simpa [and_assoc] using hnodup, hwires⟩

/-- The operator of a gate on one qubit. -/
noncomputable def bitOperator (op : Operation ℝ) : BitOperator := .of fun i j => op.entry i j

theorem operator_of_wire {op : Operation ℝ} {q : Fin n} (h : op.qubits = [(q : Nat)]) :
    op.operator n = onWire q op.bitOperator := by
  rw [operator, h]
  exact embed_singleton _ q

theorem operator_ofGate_wire (g : Gate) (params : List ℝ) (q : Fin n) :
    (ofGate g params [(q : Nat)]).operator n = onWire q (ofGate g params []).bitOperator :=
  operator_of_wire rfl

/-- Gates on one wire are multiplied as operators on a bit. -/
theorem evolution_of_wire {ops : List (Operation ℝ)} {q : Fin n}
    (h : ∀ op ∈ ops, op.qubits = [(q : Nat)]) :
    evolution n ops = onWire q (ops.map bitOperator).reverse.prod := by
  rw [evolution, map_list_prod, List.map_reverse, List.map_map]
  refine congrArg (fun ops : List (Operator n) => ops.reverse.prod) ?_
  exact List.map_congr_left fun op hop => operator_of_wire (h op hop)

/-- The operator of a gate on two qubits, by the blocks of its matrix. -/
theorem operator_of_pair {op : Operation ℝ} {p q : Fin n} (hne : p ≠ q)
    (h : op.qubits = [(p : Nat), (q : Nat)]) :
    op.operator n = blocks p
      !![onWire q !![op.entry 0 0, op.entry 0 1; op.entry 1 0, op.entry 1 1],
        onWire q !![op.entry 0 2, op.entry 0 3; op.entry 1 2, op.entry 1 3];
        onWire q !![op.entry 2 0, op.entry 2 1; op.entry 3 0, op.entry 3 1],
        onWire q !![op.entry 2 2, op.entry 2 3; op.entry 3 2, op.entry 3 3]] := by
  have hmem : (p : Nat) ∉ [(q : Nat)] := by simpa [Fin.val_inj] using hne
  have hblock (f : Nat → Nat → ℂ) :
      embed n f [(q : Nat)] = onWire q !![f 0 0, f 0 1; f 1 0, f 1 1] := by
    rw [embed_singleton, Matrix.eta_fin_two (.of _)]
    rfl
  rw [operator, h, embed_cons _ hmem, hblock, hblock, hblock, hblock]
  rfl

/-- A swap has the unit matrices as blocks. -/
theorem operator_swap (params : List ℝ) {p q : Fin n} (hne : p ≠ q) :
    (ofGate .swap params [(p : Nat), (q : Nat)]).operator n = blocks p
      !![onWire q !![1, 0; 0, 0], onWire q !![0, 0; 1, 0];
        onWire q !![0, 1; 0, 0], onWire q !![0, 0; 0, 1]] := by
  rw [operator_of_pair hne rfl]
  simp [entry, matrix, unitary?, ofGate, GateMatrix.entry]

/-- Some gates on two qubits are symmetric. -/
theorem operator_exchange {g : Gate} (hg : g = .cz ∨ g = .swap ∨ g = .cp ∨ g = .rzz)
    (params : List ℝ) (p q : Nat) :
    (ofGate g params [p, q]).operator n = (ofGate g params [q, p]).operator n := by
  refine embed_comm (fun i j k l => congrArg Amplitude.toComplex ?_) p q
  rcases hg with rfl | rfl | rfl | rfl <;>
    fin_cases i <;> fin_cases j <;> fin_cases k <;> fin_cases l <;> rfl

end Operation

/-! ## Controlled gates -/

/-- The gate that a controlled gate applies if its control is one. -/
def Gate.target? : Gate → Option Gate
  | .cx => some .x
  | .cy => some .y
  | .cz => some .z
  | .cp => some .p
  | .crz => some .rz
  | .ccx => some .cx
  | .cswap => some .swap
  | _ => none

namespace Gate

variable {g target : Gate}

theorem numQubits_of_target? (h : g.target? = some target) :
    g.numQubits = target.numQubits + 1 := by
  cases g <;> cases h <;> rfl

theorem isUnitary_of_target? (h : g.target? = some target) : target.isUnitary = true := by
  cases g <;> cases h <;> rfl

/-- The gates without controls. -/
theorem of_target?_none (hunitary : g.isUnitary = true) (h : g.target? = none) :
    g.numQubits = 1 ∨ g = .swap ∨ g = .rzz := by
  cases g <;> first | decide | exact absurd hunitary (by decide) | exact absurd h (by decide)

/-- Induction over the controls of a gate on distinct wires. -/
theorem controls_induction {P : Gate → List (Fin n) → Prop}
    (wire : ∀ {g} q, g.numQubits = 1 → g.isUnitary = true → P g [q])
    (swap : ∀ {p q}, p ≠ q → P .swap [p, q]) (rzz : ∀ {p q}, p ≠ q → P .rzz [p, q])
    (controlled : ∀ {g target q ws}, g.target? = some target → (q :: ws).Nodup →
      ws.length = target.numQubits → P target ws → P g (q :: ws))
    (hunitary : g.isUnitary = true) {ws : List (Fin n)} (hnodup : ws.Nodup)
    (hlength : ws.length = g.numQubits) : P g ws := by
  induction ws generalizing g with
  | nil => exact absurd hlength (Nat.ne_of_lt (numQubits_pos_of_isUnitary hunitary))
  | cons q ws ih =>
    cases htarget : g.target? with
    | some target =>
      have hrest : ws.length = target.numQubits :=
        Nat.succ.inj (hlength.trans (numQubits_of_target? htarget))
      exact controlled htarget hnodup hrest
        (ih (isUnitary_of_target? htarget) (List.nodup_cons.mp hnodup).2 hrest)
    | none =>
      rcases of_target?_none hunitary htarget with hone | rfl | rfl
      · obtain rfl : ws = [] := List.length_eq_zero_iff.mp (Nat.succ.inj (hlength.trans hone))
        exact wire q hone hunitary
      · obtain ⟨r, rfl⟩ := List.length_eq_one_iff.mp (Nat.succ.inj hlength)
        exact swap (by simpa using hnodup)
      · obtain ⟨r, rfl⟩ := List.length_eq_one_iff.mp (Nat.succ.inj hlength)
        exact rzz (by simpa using hnodup)

end Gate

namespace Operation

open Operator Amplitude

/-- The blocks of the matrix of a controlled gate are the identity and the
matrix of its target. -/
theorem entry_controlled {g target : Gate} (hg : g.target? = some target) (params : List ℝ)
    (qs qs' : List Nat) {r c : Nat} (hr : r < 2 ^ target.numQubits)
    (hc : c < 2 ^ target.numQubits) :
    (ofGate g params qs).entry r c = (if r = c then 1 else 0) ∧
      (ofGate g params qs).entry r (2 ^ target.numQubits + c) = 0 ∧
      (ofGate g params qs).entry (2 ^ target.numQubits + r) c = 0 ∧
      (ofGate g params qs).entry (2 ^ target.numQubits + r) (2 ^ target.numQubits + c) =
        (ofGate target params qs').entry r c := by
  have hmatrix : (ofGate g params qs).matrix.entry r c = (if r = c then one else zero) ∧
      (ofGate g params qs).matrix.entry r (2 ^ target.numQubits + c) = zero ∧
      (ofGate g params qs).matrix.entry (2 ^ target.numQubits + r) c = zero ∧
      (ofGate g params qs).matrix.entry (2 ^ target.numQubits + r) (2 ^ target.numQubits + c) =
        (ofGate target params qs').matrix.entry r c := by
    cases g <;> cases hg <;> simp only [Gate.numQubits, Nat.reducePow] at hr hc ⊢ <;>
      interval_cases r <;> interval_cases c <;> exact ⟨rfl, rfl, rfl, rfl⟩
  obtain ⟨h00, h01, h10, h11⟩ := hmatrix
  refine ⟨?_, ?_, ?_, ?_⟩
  · rw [entry, h00, apply_ite toComplex, toComplex_one, toComplex_zero]
  · rw [entry, h01, toComplex_zero]
  · rw [entry, h10, toComplex_zero]
  · rw [entry, h11, entry]

/-- A controlled gate does nothing where its control is zero, and applies its
target where the control is one. -/
theorem operator_controlled {g target : Gate} (hg : g.target? = some target) (params : List ℝ)
    {q : Fin n} {qs : List Nat} (hq : (q : Nat) ∉ qs) (hlength : qs.length = target.numQubits) :
    (ofGate g params (q :: qs)).operator n =
      select q 1 ((ofGate target params qs).operator n) := by
  have hblock {f f' : Nat → Nat → ℂ}
      (hf : ∀ r < 2 ^ target.numQubits, ∀ c < 2 ^ target.numQubits, f r c = f' r c) :
      embed n f qs = embed n f' qs := by
    rw [← hlength] at hf
    exact embed_congr hf
  have hentry (r : Nat) (hr : r < 2 ^ target.numQubits) (c : Nat)
      (hc : c < 2 ^ target.numQubits) :=
    entry_controlled hg params (q :: qs) qs hr hc
  rw [operator, select]
  refine (embed_cons _ hq).trans (congrArg (blocks q) ?_)
  rw [hlength, hblock fun r hr c hc => (hentry r hr c hc).1, embed_one,
    hblock fun r hr c hc => (hentry r hr c hc).2.1, embed_zero,
    hblock fun r hr c hc => (hentry r hr c hc).2.2.1, embed_zero,
    hblock fun r hr c hc => (hentry r hr c hc).2.2.2]
  rfl

/-- Controlled gates on the same qubits are multiplied as their targets are. -/
theorem operator_controlled_mul {g target : Gate} (hg : g.target? = some target)
    (params params' : List ℝ) {q : Fin n} {ws : List (Fin n)} (hnodup : (q :: ws).Nodup)
    (hlength : ws.length = target.numQubits) :
    (ofGate g params ((q :: ws).map Fin.val)).operator n *
        (ofGate g params' ((q :: ws).map Fin.val)).operator n =
      select q 1 ((ofGate target params (ws.map Fin.val)).operator n *
        (ofGate target params' (ws.map Fin.val)).operator n) := by
  rw [List.nodup_cons] at hnodup
  have hmem : (q : Nat) ∉ ws.map Fin.val := by simpa [Fin.val_inj] using hnodup.1
  have hlength' : (ws.map Fin.val).length = target.numQubits := by rw [List.length_map, hlength]
  have haway : (ofGate target params (ws.map Fin.val)).operator n ∈ away q :=
    embed_mem_away _ hnodup.2 hnodup.1
  rw [List.map_cons, operator_controlled hg params hmem hlength',
    operator_controlled hg params' hmem hlength', select_mul (one_mem _) haway, one_mul]

end Operation

end QuantumCompiler
