import QuantumCompiler.Peephole.Sweep
import QuantumCompiler.Proofs.WellFormed

/-!
# What the local rules give

The rules on pairs of gates only ever look at unitary gates, and what they
put in place of a pair acts on the qubits of the first gate of the pair.
`isUnitary_of_combine?` and `standsFor_of_combine?` say so for
`Sweep.combine?`, which tries the rules in turn; later proofs use these and not
the rules.  Whether gates commute is a matter of their axes (`commute_iff`).
-/

namespace QuantumCompiler.Peephole

variable {α : Type}

/-! ## Wires -/

/-- A unitary gate occupies its own qubits. -/
theorem wiresOf_of_isUnitary {n : Nat} {op : Operation α} (h : op.isUnitary = true) :
    wiresOf n op = op.qubits := by
  simp [wiresOf, Operation.isBarrier_of_isUnitary h]

/-- The wires of a well-formed operation are distinct. -/
theorem nodup_wiresOf {n m : Nat} {op : Operation α} (h : op.WellFormed n m) :
    (wiresOf n op).Nodup := by
  rw [wiresOf]
  split_ifs
  · exact List.nodup_range
  · exact h.nodup

theorem lt_of_mem_wiresOf {n m q : Nat} {op : Operation α} (h : op.WellFormed n m)
    (hq : q ∈ wiresOf n op) : q < n := by
  rw [wiresOf] at hq
  split_ifs at hq
  · exact List.mem_range.mp hq
  · exact h.qubits_lt q hq

/-! ## Rules on pairs -/

/-- Inverse pairs are pairs of unitary gates. -/
theorem isUnitary_of_isInversePair {a b : Operation α} (h : isInversePair a b = true) :
    a.isUnitary = true ∧ b.isUnitary = true := by
  rw [isInversePair] at h
  split at h
  · next g hkind =>
    simp only [Bool.and_eq_true, Option.any_eq_true, beq_iff_eq] at h
    obtain ⟨⟨g', hinverse, hkind'⟩, -⟩ := h
    have hunitary : g.isUnitary = true ∧ g'.isUnitary = true := by
      cases g <;> simp only [inverse?, Option.some.injEq, reduceCtorEq] at hinverse <;>
        subst hinverse <;> decide
    exact ⟨Operation.isUnitary_of_kind hkind hunitary.1,
      Operation.isUnitary_of_kind hkind' hunitary.2⟩
  · cases h

/-- The qubits agree as sets. -/
theorem mem_qubits_of_sameQubits {a b : Operation α} (h : sameQubits a b = true) (q : Nat) :
    q ∈ a.qubits ↔ q ∈ b.qubits := by
  rw [sameQubits, Bool.or_eq_true] at h
  rcases h with heq | hsym
  · rw [beq_iff_eq.mp heq]
  · have hmatch := (Bool.and_eq_true_iff.mp hsym).2
    split at hmatch
    · next p q r s ha hb =>
      simp only [Bool.and_eq_true, beq_iff_eq] at hmatch
      rw [ha, hb, hmatch.1, hmatch.2]
      simp [or_comm]
    · cases hmatch

/-! ## Axes -/

/-- The axis of an operation on one of its qubits. -/
def axisOn? (op : Operation α) (q : Nat) : Option Axis :=
  (op.qubits.idxOf? q).bind (operandAxis? op)

theorem axisOn?_eq {op : Operation α} (hop : op.qubits.Nodup) {i q : Nat}
    (hi : op.qubits[i]? = some q) : axisOn? op q = operandAxis? op i := by
  obtain ⟨hlt, hq⟩ := List.getElem?_eq_some_iff.mp hi
  have hposition : op.qubits.idxOf? q = some i := by
    refine List.idxOf?_eq_some_iff.mpr ⟨hlt, hq, fun k hk hsame => ?_⟩
    exact Nat.ne_of_lt hk (hop.getElem_inj_iff.mp (hsame.trans hq.symm))
  rw [axisOn?, hposition, Option.bind_some]

/-- Two operations are known to commute if they are unitary and have the same
axis on every qubit that they share. -/
theorem commute_iff {a b : Operation α} (ha : a.qubits.Nodup) :
    commute a b = true ↔ a.isUnitary = true ∧ b.isUnitary = true ∧
      ∀ q ∈ a.qubits, q ∈ b.qubits →
      ∃ axis, axisOn? a q = some axis ∧ axisOn? b q = some axis := by
  rw [commute, Bool.and_eq_true, Bool.and_eq_true, List.all_eq_true, and_assoc]
  refine and_congr_right fun _ => and_congr_right fun _ => ⟨fun h q hqa hqb => ?_,
    fun h x hx => ?_⟩
  · obtain ⟨i, hi⟩ := List.mem_iff_getElem?.mp hqa
    obtain ⟨j, hj⟩ := Option.isSome_iff_exists.mp (List.isSome_idxOf?.mpr hqb)
    have hshared := h (q, i) (List.mem_zipIdx_iff_getElem?.mpr hi)
    simp only [hj, Bool.and_eq_true, Option.isSome_iff_exists, beq_iff_eq] at hshared
    obtain ⟨⟨axis, haxis⟩, hsame⟩ := hshared
    refine ⟨axis, (axisOn?_eq ha hi).trans haxis, ?_⟩
    rw [axisOn?, hj, Option.bind_some, ← hsame, haxis]
  · have hi := List.mem_zipIdx_iff_getElem?.mp hx
    cases hj : b.qubits.idxOf? x.1 with
    | none => simp only [hj]
    | some j =>
      obtain ⟨axis, haxis, haxis'⟩ := h x.1 (List.mem_of_getElem? hi)
        (List.isSome_idxOf?.mp (by rw [hj]; rfl))
      rw [axisOn?_eq ha hi] at haxis
      rw [axisOn?, hj, Option.bind_some] at haxis'
      simp [hj, haxis, haxis']

theorem commute_symm {a b : Operation α} (ha : a.qubits.Nodup) (hb : b.qubits.Nodup)
    (h : commute a b = true) : commute b a = true := by
  obtain ⟨hua, hub, hshared⟩ := (commute_iff ha).mp h
  refine (commute_iff hb).mpr ⟨hub, hua, fun q hqb hqa => ?_⟩
  obtain ⟨axis, haxis, haxis'⟩ := hshared q hqa hqb
  exact ⟨axis, haxis', haxis⟩

/-! ## Matrices and angles -/

variable [RealArith α]

/-- An operation with a matrix is unitary. -/
theorem isUnitary_of_unitary? {op : Operation α} {mat : GateMatrix α}
    (h : op.unitary? = some mat) : op.isUnitary = true := by
  rw [Operation.unitary?] at h
  split at h
  · cases h
  · next g hkind =>
    refine Operation.isUnitary_of_kind hkind ?_
    cases g <;> first | rfl | cases h

/-- An identity is unitary. -/
theorem isUnitary_of_isIdentity {op : Operation α} (h : isIdentity op = true) :
    op.isUnitary = true := by
  simp only [isIdentity, Bool.or_eq_true, Bool.and_eq_true, beq_iff_eq] at h
  rcases h with hkind | ⟨hunitary, -⟩
  · exact Operation.isUnitary_of_kind hkind rfl
  · exact hunitary

/-- Merging keeps everything of the first rotation but its angle. -/
theorem merge?_eq_some {a b op : Operation α} (h : merge? a b = some op) :
    a.isUnitary = true ∧ b.isUnitary = true ∧
      ∃ θ : α, op = { a with params := a.params.set 0 θ } := by
  rw [merge?] at h
  split at h
  · cases h
  · next period hperiod =>
    split_ifs at h with hsame
    simp only [Bool.and_eq_true, beq_iff_eq] at hsame
    have ha : a.isUnitary = true := by
      cases hkind : a.kind with
      | custom name novel =>
        rw [hkind] at hperiod
        cases hperiod
      | gate g =>
        refine Operation.isUnitary_of_kind hkind ?_
        rw [hkind] at hperiod
        cases g <;> first | rfl | cases hperiod
    have hb : b.isUnitary = true := by
      rw [Operation.isUnitary, ← hsame.1.1]
      exact ha
    exact ⟨ha, hb, _, (Option.some.inj h).symm⟩

/-- Fusing gives a general rotation on the one qubit of both gates. -/
theorem fuse?_eq_some {a b op : Operation α} (h : fuse? a b = some op) :
    a.isUnitary = true ∧ b.isUnitary = true ∧
      ∃ (q : Nat) (θ φ lam : α), a.qubits = [q] ∧ op = .ofGate .u [θ, φ, lam] [q] := by
  rw [fuse?] at h
  split at h
  · next q hqubits =>
    split_ifs at h with hsame
    split at h
    · next ma mb hma hmb =>
      refine ⟨isUnitary_of_unitary? hma, isUnitary_of_unitary? hmb, q, ?_⟩
      exact ⟨_, _, _, hqubits, (Option.some.inj h).symm⟩
    · cases h
  · cases h

/-- What an operation becomes together with a later one, before identities
are dropped: either a merged rotation or a fused one. -/
theorem combine?_some {r : Simplifications} {a b : Operation α} {c : Combination α}
    (h : Sweep.combine? r a b = some c) :
    isInversePair a b = true ∧ c = .eliminated ∨
      ∃ op, (merge? a b = some op ∨ r.fuse = true ∧ fuse? a b = some op) ∧
        (isIdentity op = true ∧ c = .eliminated ∨ c = .merged op) := by
  rw [Sweep.combine?] at h
  by_cases hcancel : (r.cancel && isInversePair a b) = true
  · left
    rw [if_pos hcancel] at h
    simp only [Bool.and_eq_true] at hcancel
    exact ⟨hcancel.2, (Option.some.inj h).symm⟩
  · right
    rw [if_neg hcancel] at h
    split at h
    · cases h
    · next op hop =>
      refine ⟨op, ?_, ?_⟩
      · simp only [Option.orElse_eq_orElse, Option.orElse_eq_or, Option.or_eq_some_iff] at hop
        rcases hop with hmerge | ⟨-, hfuse⟩
        · split_ifs at hmerge
          exact .inl hmerge
        · split_ifs at hfuse with hr
          exact .inr ⟨hr, hfuse⟩
      · split_ifs at h with hidentity
        · simp only [Bool.and_eq_true] at hidentity
          exact .inl ⟨hidentity.2, (Option.some.inj h).symm⟩
        · exact .inr (Option.some.inj h).symm

/-- Only unitary gates are combined. -/
theorem isUnitary_of_combine? {r : Simplifications} {a b : Operation α} {c : Combination α}
    (h : Sweep.combine? r a b = some c) : a.isUnitary = true ∧ b.isUnitary = true := by
  rcases combine?_some h with ⟨hinverse, -⟩ | ⟨op, hmerge | ⟨-, hfuse⟩, -⟩
  · exact isUnitary_of_isInversePair hinverse
  · exact ⟨(merge?_eq_some hmerge).1, (merge?_eq_some hmerge).2.1⟩
  · exact ⟨(fuse?_eq_some hfuse).1, (fuse?_eq_some hfuse).2.1⟩

/-- Operations that combine act on the same qubits. -/
theorem mem_qubits_of_combine? {r : Simplifications} {a b : Operation α} {c : Combination α}
    (h : Sweep.combine? r a b = some c) (q : Nat) : q ∈ a.qubits ↔ q ∈ b.qubits := by
  rcases combine?_some h with ⟨hinverse, -⟩ | ⟨op, hmerge | ⟨-, hfuse⟩, -⟩
  · rw [isInversePair] at hinverse
    split at hinverse
    · exact mem_qubits_of_sameQubits (Bool.and_eq_true_iff.mp hinverse).2 q
    · cases hinverse
  · rw [merge?] at hmerge
    split at hmerge
    · cases hmerge
    · split_ifs at hmerge with hsame
      simp only [Bool.and_eq_true] at hsame
      exact mem_qubits_of_sameQubits hsame.1.2 q
  · rw [fuse?] at hfuse
    split at hfuse
    · next p hp =>
      split_ifs at hfuse with hb
      rw [hp, beq_iff_eq.mp hb]
    · cases hfuse

/-- What two gates merge into is the first one with another angle, or a general
rotation on its one qubit if gates are fused. -/
theorem combine?_eq_merged {r : Simplifications} {a b op : Operation α}
    (h : Sweep.combine? r a b = some (.merged op)) :
    (∃ θ : α, op = { a with params := a.params.set 0 θ }) ∨
      r.fuse = true ∧
        ∃ (q : Nat) (θ φ lam : α), a.qubits = [q] ∧ op = .ofGate .u [θ, φ, lam] [q] := by
  rcases combine?_some h with ⟨-, hc⟩ | ⟨op', hop', ⟨-, hc⟩ | hc⟩
  · cases hc
  · cases hc
  · cases hc
    rcases hop' with hmerge | ⟨hr, hfuse⟩
    · exact .inl (merge?_eq_some hmerge).2.2
    · exact .inr ⟨hr, (fuse?_eq_some hfuse).2.2⟩

/-- What may stand in the place of a gate: a gate on the same qubits, of the
same kind unless gates are fused. -/
structure StandsFor (r : Simplifications) (a op : Operation α) : Prop where
  unitary : op.isUnitary = true
  qubits : op.qubits = a.qubits
  kind : op.kind = a.kind ∨ r.fuse = true ∧ op.kind = .gate .u

theorem standsFor_of_combine? {r : Simplifications} {a b op : Operation α}
    (h : Sweep.combine? r a b = some (.merged op)) : StandsFor r a op := by
  rcases combine?_eq_merged h with ⟨θ, rfl⟩ | ⟨hr, q, θ, φ, lam, hqubits, rfl⟩
  · exact ⟨(isUnitary_of_combine? h).1, rfl, .inl rfl⟩
  · exact ⟨rfl, hqubits.symm, .inr ⟨hr, rfl⟩⟩

/-- What two gates merge into is well formed. -/
theorem wellFormed_of_combine? {r : Simplifications} {n m : Nat} {a b op : Operation α}
    (ha : a.WellFormed n m) (h : Sweep.combine? r a b = some (.merged op)) :
    op.WellFormed n m := by
  rcases combine?_eq_merged h with ⟨θ, rfl⟩ | ⟨-, q, θ, φ, lam, hqubits, rfl⟩
  · obtain ⟨hname, hlt, hnodup, hclbits, hshape⟩ := Operation.wellFormed_iff.mp ha
    refine Operation.wellFormed_iff.mpr ⟨hname, hlt, hnodup, hclbits, ?_⟩
    rw [← hshape]
    exact Operation.shapeFault?_congr rfl (by simp) rfl rfl
  · have hq : q < n := ha.qubits_lt q (by simp [hqubits])
    exact Operation.wellFormed_ofGate (by decide) rfl rfl rfl (by simpa using hq) (by simp)

end QuantumCompiler.Peephole
